import Ucore.Lib.Run
import Ucore.Lib.Window
import Ucore.Sched.Stride

set_option autoImplicit false

namespace Ucore.Sched

open Ucore.Lib

-- picks is not kept by the kernel: it counts the rounds in which schedule
-- chose a process.
structure StrideSystem where
  sched : SchedState
  picks : ProcId → Nat

inductive StrideEvent where
  | tick
  | preempt
deriving DecidableEq, Repr

-- A timer interrupt, and the call of schedule that trap and cpu_idle make when
-- the running process is marked need_resched.
def strideStep (s : StrideSystem) : StrideEvent → Option StrideSystem
  | .tick => some { s with sched := schedClassProcTick s.sched s.sched.current }
  | .preempt =>
      if (s.sched.procs s.sched.current).needResched then
        (schedule s.sched).map fun next => ⟨next, Function.update s.picks next.current (s.picks next.current + 1)⟩
      else none

-- The branch of stride_enqueue that moves the stride of the process forward.
def clampsCurrent (s : SchedState) : Bool :=
  decide (s.current ≠ idleproc) && decide ((s.procs s.current).state = .runnable) && strideBehindTop s s.current

def Unclamped (s : StrideSystem) (event : StrideEvent) : Prop := event = .preempt → clampsCurrent s.sched = false

instance (s : StrideSystem) (event : StrideEvent) : Decidable (Unclamped s event) :=
  inferInstanceAs (Decidable (event = .preempt → clampsCurrent s.sched = false))

def charged (prio : ProcId → BitVec 32) (picks : ProcId → Nat) (i : ProcId) : Nat := picks i * strideInc (prio i)

def runningList (s : SchedState) : List ProcId := if s.current = idleproc then [] else [s.current]

-- Every process of the set is runnable, is the running one or in the pool, and
-- all start with one stride; the pool may have any shape.
structure EqualStart (ids : List ProcId) (prio : ProcId → BitVec 32) (s : SchedState) : Prop where
  nodup : ids.Nodup
  notIdle : idleproc ∉ ids
  present : (runningList s ++ s.rq.lab6RunPool.toList).Perm ids
  runnable : ∀ i ∈ ids, (s.procs i).state = .runnable
  priority : ∀ i ∈ ids, (s.procs i).lab6Priority = prio i
  positive : ∀ i ∈ ids, 0 < (prio i).toNat
  queued : ∀ i ∈ s.rq.lab6RunPool.toList, (s.procs i).onRq = true
  equal : ∀ i ∈ ids, ∀ j ∈ ids, (s.procs i).lab6Stride = (s.procs j).lab6Stride

structure Entries (ids : List ProcId) (prio : ProcId → BitVec 32) (base : BitVec 32) (picks : ProcId → Nat)
    (procs : ProcId → Proc) : Prop where
  runnable : ∀ i ∈ ids, (procs i).state = .runnable
  priority : ∀ i ∈ ids, (procs i).lab6Priority = prio i
  stride : ∀ i ∈ ids, (procs i).lab6Stride = base + BitVec.ofNat 32 (charged prio picks i)
  balanced : Balanced (· ∈ ids) bigStride (charged prio picks)

-- The state between two rounds.
structure StrideInv (ids : List ProcId) (prio : ProcId → BitVec 32) (base : BitVec 32) (s : StrideSystem) : Prop where
  entries : Entries ids prio base s.picks s.sched.procs
  present : (runningList s.sched ++ s.sched.rq.lab6RunPool.toList).Perm ids
  queued : ∀ i ∈ s.sched.rq.lab6RunPool.toList, (s.sched.procs i).onRq = true
  ordered : s.sched.rq.lab6RunPool.HeapOrdered fun a b => charged prio s.picks a ≤ charged prio s.picks b

-- The state inside a round, when the running process is back in the pool.
structure QueueInv (ids : List ProcId) (prio : ProcId → BitVec 32) (base : BitVec 32) (picks : ProcId → Nat)
    (s : SchedState) : Prop where
  entries : Entries ids prio base picks s.procs
  present : s.rq.lab6RunPool.toList.Perm ids
  queued : ∀ i ∈ ids, (s.procs i).onRq = true
  ordered : s.rq.lab6RunPool.HeapOrdered fun a b => charged prio picks a ≤ charged prio picks b

theorem stride_inc_le (priority : BitVec 32) : strideInc priority ≤ bigStride := by
  unfold strideInc
  split
  · exact Nat.div_le_self _ _
  · exact Nat.le_refl _

theorem stride_difference (ids : List ProcId) (prio : ProcId → BitVec 32) (base : BitVec 32) (picks : ProcId → Nat)
    (procs : ProcId → Proc) (entries : Entries ids prio base picks procs) (a b : ProcId) (inA : a ∈ ids) (inB : b ∈ ids) :
    ((procs a).lab6Stride - (procs b).lab6Stride).toInt = (charged prio picks a : Int) - charged prio picks b := by
  have left := entries.balanced a b inA inB
  have right := entries.balanced b a inB inA
  rw [entries.stride a inA, entries.stride b inB]
  apply wrapped_sub_to_int 32 base _ _ (by decide)
  · simp only [bigStride] at right
    omega
  · simp only [bigStride] at left
    omega

theorem stride_comp_lawful (ids : List ProcId) (prio : ProcId → BitVec 32) (base : BitVec 32) (picks : ProcId → Nat)
    (procs : ProcId → Proc) (entries : Entries ids prio base picks procs) :
    CompLe (procStrideCompF procs) (fun a b => charged prio picks a ≤ charged prio picks b) (· ∈ ids) where
  before := by
    intro a b inA inB smaller
    have difference := stride_difference ids prio base picks procs entries a b inA inB
    simp only [procStrideCompF, difference] at smaller
    split at smaller
    · simp at smaller
    · split at smaller
      · simp at smaller
      · omega
  after := by
    intro a b inA inB larger
    have difference := stride_difference ids prio base picks procs entries a b inA inB
    by_contra behind
    apply larger
    simp only [procStrideCompF, difference]
    rw [if_neg (by omega), if_neg (by omega)]
  trans := fun _ _ _ _ _ _ first second => Nat.le_trans first second

theorem entries_congr (ids : List ProcId) (prio : ProcId → BitVec 32) (base : BitVec 32) (picks : ProcId → Nat)
    (procs next : ProcId → Proc) (entries : Entries ids prio base picks procs)
    (state : ∀ i, (next i).state = (procs i).state) (priority : ∀ i, (next i).lab6Priority = (procs i).lab6Priority)
    (stride : ∀ i, (next i).lab6Stride = (procs i).lab6Stride) : Entries ids prio base picks next where
  runnable i member := (state i).trans (entries.runnable i member)
  priority i member := (priority i).trans (entries.priority i member)
  stride i member := (stride i).trans (entries.stride i member)
  balanced := entries.balanced

-- A write that leaves a field alone leaves it alone for every process.
theorem set_proc_field {β : Type} (field : Proc → β) (s : SchedState) (proc : ProcId) (value : Proc)
    (same : field value = field (s.procs proc)) (i : ProcId) : field ((s.setProc proc value).procs i) = field (s.procs i) := by
  by_cases here : i = proc
  · subst here
    rw [set_proc_here, same]
  · rw [set_proc_elsewhere s proc i value here]

theorem tick_keeps_entries (ids : List ProcId) (prio : ProcId → BitVec 32) (base : BitVec 32) (s : StrideSystem)
    (inv : StrideInv ids prio base s) :
    StrideInv ids prio base { s with sched := schedClassProcTick s.sched s.sched.current } := by
  have shape : ∃ value, schedClassProcTick s.sched s.sched.current = s.sched.setProc s.sched.current value ∧
      value.state = (s.sched.procs s.sched.current).state ∧
      value.lab6Priority = (s.sched.procs s.sched.current).lab6Priority ∧
      value.lab6Stride = (s.sched.procs s.sched.current).lab6Stride ∧ value.onRq = (s.sched.procs s.sched.current).onRq := by
    unfold schedClassProcTick strideProcTick
    split
    · exact ⟨_, rfl, rfl, rfl, rfl, rfl⟩
    · exact ⟨_, rfl, rfl, rfl, rfl, rfl⟩
  obtain ⟨value, written, state, priority, stride, onRq⟩ := shape
  rw [written]
  refine ⟨?_, inv.present, ?_, inv.ordered⟩
  · exact entries_congr ids prio base s.picks _ _ inv.entries (set_proc_field Proc.state _ _ _ state)
      (set_proc_field Proc.lab6Priority _ _ _ priority) (set_proc_field Proc.lab6Stride _ _ _ stride)
  · exact fun i member => (set_proc_field Proc.onRq _ _ _ onRq i).trans (inv.queued i member)

theorem stride_enqueue_unclamped (s : SchedState) (proc : ProcId) (ahead : strideBehindTop s proc = false) :
    strideEnqueueStride s proc = (s.procs proc).lab6Stride := by
  unfold strideEnqueueStride
  split
  · rfl
  · simp [ahead]

theorem stride_enqueue_queue_inv (ids : List ProcId) (prio : ProcId → BitVec 32) (base : BitVec 32) (picks : ProcId → Nat)
    (s : SchedState) (proc : ProcId) (entries : Entries ids prio base picks s.procs)
    (present : (proc :: s.rq.lab6RunPool.toList).Perm ids) (queued : ∀ i ∈ s.rq.lab6RunPool.toList, (s.procs i).onRq = true)
    (ordered : s.rq.lab6RunPool.HeapOrdered fun a b => charged prio picks a ≤ charged prio picks b)
    (ahead : strideBehindTop s proc = false) : QueueInv ids prio base picks (strideEnqueue s proc) := by
  have inPool : ∀ i, i ∈ ids ↔ i = proc ∨ i ∈ s.rq.lab6RunPool.toList := fun i => by
    rw [← present.mem_iff, List.mem_cons]
  have raised : Entries ids prio base picks
      (s.setProc proc { s.procs proc with lab6Stride := strideEnqueueStride s proc }).procs := by
    refine entries_congr ids prio base picks s.procs _ entries (set_proc_field Proc.state _ _ _ rfl)
      (set_proc_field Proc.lab6Priority _ _ _ rfl) (set_proc_field Proc.lab6Stride _ _ _ ?_)
    exact stride_enqueue_unclamped s proc ahead
  have lawful := stride_comp_lawful ids prio base picks _ raised
  refine ⟨?_, ?_, ?_, ?_⟩
  · exact entries_congr ids prio base picks _ _ raised (set_proc_field Proc.state _ _ _ rfl)
      (set_proc_field Proc.lab6Priority _ _ _ rfl) (set_proc_field Proc.lab6Stride _ _ _ rfl)
  · exact (skew_heap_insert_perm _ _ _).trans present
  · intro i member
    simp only [strideEnqueue]
    by_cases here : i = proc
    · subst here
      rw [set_proc_here]
    · rw [set_proc_elsewhere _ _ _ _ here, set_proc_elsewhere _ _ _ _ here]
      exact queued i (((inPool i).mp member).resolve_left here)
  · exact skew_heap_insert_ordered _ _ (· ∈ ids) lawful _ proc (fun other member => (inPool other).mpr (Or.inr member))
      ((inPool proc).mpr (Or.inl rfl)) ordered

theorem charged_pick (prio : ProcId → BitVec 32) (picks : ProcId → Nat) (chosen : ProcId) :
    charged prio (Function.update picks chosen (picks chosen + 1)) =
      Function.update (charged prio picks) chosen (charged prio picks chosen + strideInc (prio chosen)) := by
  funext i
  by_cases here : i = chosen
  · subst here
    simp [charged, Nat.add_mul]
  · simp [charged, here]

theorem stride_dequeue_some (s : SchedState) (proc : ProcId) (onRq : (s.procs proc).onRq = true) :
    ∃ next, strideDequeue s proc = some next ∧ next.current = s.current ∧
      next.rq.lab6RunPool = skewHeapRemove (procStrideCompF s.procs) proc s.rq.lab6RunPool ∧
      (∀ i, (next.procs i).state = (s.procs i).state) ∧ (∀ i, (next.procs i).lab6Priority = (s.procs i).lab6Priority) ∧
      (∀ i, (next.procs i).lab6Stride = (s.procs i).lab6Stride) ∧ (∀ i, i ≠ proc → next.procs i = s.procs i) := by
  rw [strideDequeue, if_pos onRq]
  exact ⟨_, rfl, rfl, rfl, set_proc_field Proc.state _ _ _ rfl, set_proc_field Proc.lab6Priority _ _ _ rfl,
    set_proc_field Proc.lab6Stride _ _ _ rfl, fun i apart => set_proc_elsewhere _ _ _ _ apart⟩

-- Choosing and taking out the root charges its process; the rest of the pool
-- is not touched, and its order speaks of the rest alone.
theorem stride_pick_dequeue (ids : List ProcId) (prio : ProcId → BitVec 32) (base : BitVec 32) (picks : ProcId → Nat)
    (s : SchedState) (top : ProcId) (nodup : ids.Nodup) (inv : QueueInv ids prio base picks s)
    (root : s.rq.lab6RunPool.root? = some top) :
    ∃ chosen next, stridePickNext s = (some top, chosen) ∧ strideDequeue chosen top = some next ∧
      top ∈ ids ∧ next.current = s.current ∧
      Entries ids prio base (Function.update picks top (picks top + 1)) next.procs ∧
      (top :: next.rq.lab6RunPool.toList).Perm ids ∧ (∀ i ∈ next.rq.lab6RunPool.toList, (next.procs i).onRq = true) ∧
      next.rq.lab6RunPool.HeapOrdered fun a b =>
        charged prio (Function.update picks top (picks top + 1)) a ≤ charged prio (Function.update picks top (picks top + 1)) b := by
  obtain ⟨left, right, pool⟩ : ∃ left right, s.rq.lab6RunPool = .node left top right := by
    cases tree : s.rq.lab6RunPool with
    | nil => simp [tree, BinTree.root?] at root
    | node left item right =>
        simp only [tree, BinTree.root?, Option.some.injEq] at root
        exact ⟨left, right, by rw [root]⟩
  have topIn : top ∈ ids := inv.present.mem_iff.mp (BinTree.root_mem _ _ root)
  have listed : (top :: (left.toList ++ right.toList)).Perm ids := by
    have whole := inv.present
    rwa [pool] at whole
  have distinct : (top :: (left.toList ++ right.toList)).Nodup := listed.nodup_iff.mpr nodup
  have others : ∀ i ∈ left.toList ++ right.toList, i ≠ top := fun i member same =>
    (List.nodup_cons.mp distinct).1 (same ▸ member)
  have least : ∀ other ∈ ids, charged prio picks top ≤ charged prio picks other := fun other member =>
    BinTree.heap_root_least (fun a b => charged prio picks a ≤ charged prio picks b) _ top other (Nat.le_refl _) inv.ordered
      root (inv.present.mem_iff.mpr member)
  have account := charged_pick prio picks top
  let bumped : Proc := { s.procs top with
    lab6Stride := (s.procs top).lab6Stride + BitVec.ofNat 32 (strideInc (s.procs top).lab6Priority) }
  have onRq : ((s.setProc top bumped).procs top).onRq = true := by
    rw [set_proc_here]
    exact inv.queued top topIn
  have chosen : stridePickNext s = (some top, s.setProc top bumped) := by simp only [stridePickNext, root, bumped]
  have entries : Entries ids prio base (Function.update picks top (picks top + 1)) (s.setProc top bumped).procs := by
    refine ⟨?_, ?_, ?_, ?_⟩
    · exact fun i member => (set_proc_field Proc.state s top bumped rfl i).trans (inv.entries.runnable i member)
    · exact fun i member => (set_proc_field Proc.lab6Priority s top bumped rfl i).trans (inv.entries.priority i member)
    · intro i member
      rw [account]
      by_cases here : i = top
      · subst here
        rw [set_proc_here, Function.update_self]
        simp only [bumped, inv.entries.stride i member, inv.entries.priority i member, BitVec.ofNat_add, BitVec.add_assoc]
      · rw [set_proc_elsewhere _ _ _ _ here, Function.update_of_ne here]
        exact inv.entries.stride i member
    · rw [account]
      exact balanced_charge_least (· ∈ ids) bigStride _ _ top inv.entries.balanced (stride_inc_le _) least
  have lawful := stride_comp_lawful ids prio base _ _ entries
  have charges : ∀ i ∈ left.toList ++ right.toList,
      charged prio (Function.update picks top (picks top + 1)) i = charged prio picks i := fun i member => by
    rw [account, Function.update_of_ne (others i member)]
  have ordered := inv.ordered
  rw [pool] at ordered
  obtain ⟨next, taken, current, rest, state, priority, stride, untouched⟩ := stride_dequeue_some _ top onRq
  rw [set_proc_rq, pool, skew_heap_remove_root] at rest
  refine ⟨_, next, chosen, taken, topIn, current, ?_, ?_, ?_, ?_⟩
  · exact entries_congr ids prio base _ _ _ entries state priority stride
  · rw [rest]
    exact (List.Perm.cons top (skew_heap_merge_perm _ left right)).trans listed
  · intro i member
    rw [rest] at member
    have inRest := List.mem_append.mpr ((skew_heap_merge_mem _ left right i).mp member)
    have apart := others i inRest
    rw [untouched i apart, set_proc_elsewhere _ _ _ _ apart]
    exact inv.queued i (listed.mem_iff.mp (List.mem_cons_of_mem top inRest))
  · have used : ∀ i ∈ left.toList ++ right.toList, i ∈ ids := fun i member => listed.mem_iff.mp (List.mem_cons_of_mem top member)
    rw [rest]
    apply skew_heap_merge_ordered _ _ (· ∈ ids) lawful left right
    · exact fun i member => used i (List.mem_append_left _ member)
    · exact fun i member => used i (List.mem_append_right _ member)
    · refine BinTree.heap_ordered_congr _ _ left (fun a inA b inB le => ?_) ordered.2.2.1
      rwa [charges a (List.mem_append_left _ inA), charges b (List.mem_append_left _ inB)]
    · refine BinTree.heap_ordered_congr _ _ right (fun a inA b inB le => ?_) ordered.2.2.2
      rwa [charges a (List.mem_append_right _ inA), charges b (List.mem_append_right _ inB)]

theorem schedule_switch_fields (s : SchedState) (next : ProcId) :
    (scheduleSwitch s next).current = next ∧ (scheduleSwitch s next).rq = s.rq ∧
      (∀ i, ((scheduleSwitch s next).procs i).state = (s.procs i).state) ∧
      (∀ i, ((scheduleSwitch s next).procs i).lab6Priority = (s.procs i).lab6Priority) ∧
      (∀ i, ((scheduleSwitch s next).procs i).lab6Stride = (s.procs i).lab6Stride) ∧
      (∀ i, ((scheduleSwitch s next).procs i).onRq = (s.procs i).onRq) := by
  have fields : ∀ {β : Type} (field : Proc → β), (∀ entry runs, field { entry with runs := runs } = field entry) →
      ∀ i, field ((scheduleSwitch s next).procs i) = field (s.procs i) := by
    intro β field same i
    unfold scheduleSwitch
    have counted := set_proc_field field s next { s.procs next with runs := (s.procs next).runs + 1 } (same _ _) i
    split
    · exact counted
    · exact (set_proc_field field (s.setProc next _) next _ (same _ _) i).trans counted
  refine ⟨?_, ?_, fields _ fun _ _ => rfl, fields _ fun _ _ => rfl, fields _ fun _ _ => rfl, fields _ fun _ _ => rfl⟩
  · unfold scheduleSwitch
    split
    case isTrue here => exact here.symm
    case isFalse => rfl
  · unfold scheduleSwitch
    split <;> rfl

theorem schedule_queue_inv (ids : List ProcId) (prio : ProcId → BitVec 32) (base : BitVec 32) (s : StrideSystem)
    (inv : StrideInv ids prio base s) (ahead : clampsCurrent s.sched = false) :
    QueueInv ids prio base s.picks (scheduleQueued s.sched) ∧ (scheduleQueued s.sched).current = s.sched.current := by
  have entries := entries_congr ids prio base s.picks _ (s.sched.setProc s.sched.current
      { s.sched.procs s.sched.current with needResched := false }).procs inv.entries
    (set_proc_field Proc.state _ _ _ rfl) (set_proc_field Proc.lab6Priority _ _ _ rfl) (set_proc_field Proc.lab6Stride _ _ _ rfl)
  have onRq := set_proc_field Proc.onRq s.sched s.sched.current
    { s.sched.procs s.sched.current with needResched := false } rfl
  have present := inv.present
  unfold scheduleQueued
  by_cases idle : s.sched.current = idleproc
  · have unqueued : ∀ state : SchedState, schedClassEnqueue state s.sched.current = state := fun state => by
      rw [schedClassEnqueue, if_pos idle]
    simp only [runningList, if_pos idle, List.nil_append] at present
    simp only [unqueued, ite_self]
    exact ⟨⟨entries, present, fun i member => (onRq i).trans (inv.queued i (present.mem_iff.mpr member)), inv.ordered⟩, rfl⟩
  · simp only [runningList, if_neg idle, List.singleton_append] at present
    have inIds : s.sched.current ∈ ids := present.mem_iff.mp List.mem_cons_self
    have runnable := entries.runnable _ inIds
    simp only [if_pos runnable, schedClassEnqueue, if_neg idle]
    refine ⟨stride_enqueue_queue_inv ids prio base s.picks _ _ entries present ?_ inv.ordered ?_, rfl⟩
    · exact fun i member => (onRq i).trans (inv.queued i member)
    · have stride := set_proc_field Proc.lab6Stride s.sched s.sched.current
        { s.sched.procs s.sched.current with needResched := false } rfl
      simp only [clampsCurrent, idle, inv.entries.runnable _ inIds, ne_eq, not_false_eq_true, decide_true, Bool.true_and] at ahead
      rw [strideBehindTop, set_proc_rq]
      rw [strideBehindTop] at ahead
      cases top : s.sched.rq.lab6RunPool.root? with
      | none => rfl
      | some first =>
          rw [top] at ahead
          simpa only [stride] using ahead

theorem schedule_keeps (ids : List ProcId) (prio : ProcId → BitVec 32) (base : BitVec 32) (s : StrideSystem)
    (nodup : ids.Nodup) (notIdle : idleproc ∉ ids) (inv : StrideInv ids prio base s) (ahead : clampsCurrent s.sched = false) :
    ∃ next, schedule s.sched = some next ∧
      StrideInv ids prio base ⟨next, Function.update s.picks next.current (s.picks next.current + 1)⟩ := by
  obtain ⟨queue, current⟩ := schedule_queue_inv ids prio base s inv ahead
  cases root : (scheduleQueued s.sched).rq.lab6RunPool.root? with
  | none =>
      have empty : (scheduleQueued s.sched).rq.lab6RunPool = .nil := (BinTree.root_none _).mp root
      have noIds : ids = [] := by
        have present := queue.present
        rw [empty] at present
        exact List.Perm.eq_nil present.symm
      have chosen : stridePickNext (scheduleQueued s.sched) = (none, scheduleQueued s.sched) := by
        simp only [stridePickNext, root]
      obtain ⟨here, rq, _⟩ := schedule_switch_fields (scheduleQueued s.sched) idleproc
      refine ⟨scheduleSwitch (scheduleQueued s.sched) idleproc, ?_, ?_⟩
      · simp only [schedule, chosen]
      · subst noIds
        refine ⟨⟨by simp, by simp, by simp, fun a _ inA => absurd inA (by simp)⟩, ?_, ?_, ?_⟩
        · simp [runningList, here, rq, empty, BinTree.toList]
        · simp [rq, empty, BinTree.toList]
        · simp [rq, empty, BinTree.HeapOrdered]
  | some top =>
      obtain ⟨chosen, next, picked, taken, topIn, kept, entries, present, queued, ordered⟩ :=
        stride_pick_dequeue ids prio base s.picks _ top nodup queue root
      obtain ⟨here, rq, state, priority, stride, onRq⟩ := schedule_switch_fields next top
      refine ⟨scheduleSwitch next top, ?_, ?_⟩
      · simp only [schedule, picked, taken, Option.map_some]
      · have notIdleTop : top ≠ idleproc := fun same => notIdle (same ▸ topIn)
        rw [here]
        refine ⟨entries_congr ids prio base _ _ _ entries state priority stride, ?_, ?_, ?_⟩
        · simpa only [runningList, here, if_neg notIdleTop, rq, List.singleton_append] using present
        · intro i member
          rw [rq] at member
          exact (onRq i).trans (queued i member)
        · rw [rq]
          exact ordered

theorem equal_start_inv (ids : List ProcId) (prio : ProcId → BitVec 32) (s : SchedState) (start : EqualStart ids prio s) :
    ∃ base, StrideInv ids prio base ⟨s, fun _ => 0⟩ := by
  have uncharged : ∀ i, charged prio (fun _ => 0) i = 0 := fun i => by simp [charged]
  have flat : s.rq.lab6RunPool.HeapOrdered fun a b => charged prio (fun _ => 0) a ≤ charged prio (fun _ => 0) b := by
    induction s.rq.lab6RunPool with
    | nil => trivial
    | node left root right ihLeft ihRight => exact ⟨by simp [uncharged], by simp [uncharged], ihLeft, ihRight⟩
  have common : ∃ base, ∀ i ∈ ids, (s.procs i).lab6Stride = base := by
    cases ids with
    | nil => exact ⟨0, by simp⟩
    | cons first rest => exact ⟨(s.procs first).lab6Stride, fun i member => start.equal i member first List.mem_cons_self⟩
  obtain ⟨base, same⟩ := common
  refine ⟨base, ⟨start.runnable, start.priority, ?_, ?_⟩, start.present, start.queued, flat⟩
  · intro i member
    simp [uncharged, same i member]
  · intro a b _ _
    simp [uncharged]

theorem stride_run_inv (ids : List ProcId) (prio : ProcId → BitVec 32) (base : BitVec 32) (s final : StrideSystem)
    (events : List StrideEvent) (nodup : ids.Nodup) (notIdle : idleproc ∉ ids) (inv : StrideInv ids prio base s)
    (met : Throughout strideStep Unclamped s events) (ran : run strideStep s events = some final) :
    StrideInv ids prio base final := by
  refine run_invariant strideStep Unclamped (StrideInv ids prio base) ?_ events s final inv met ran
  intro state event next held condition taken
  cases event with
  | tick =>
      have same : _ = next := Option.some.inj taken
      exact same ▸ tick_keeps_entries ids prio base state held
  | preempt =>
      obtain ⟨after, returned, kept⟩ := schedule_keeps ids prio base state nodup notIdle held (condition rfl)
      simp only [strideStep, returned, Option.map_some] at taken
      split at taken
      · have same : _ = next := Option.some.inj taken
        exact same ▸ kept
      · simp at taken

-- The distance of two shares, in units of stride, after any number of rounds.
def shareGap (prio : ProcId → BitVec 32) (picks : ProcId → Nat) (i j : ProcId) : Nat :=
  (((picks i * (bigStride / (prio i).toNat) : Nat) : Int) - ((picks j * (bigStride / (prio j).toNat) : Nat) : Int)).natAbs

-- The claim on every round of every run that never takes the clamping branch:
-- the round returns, and the shares stay within BIG_STRIDE of each other.
theorem stride_proportional_share (ids : List ProcId) (prio : ProcId → BitVec 32) (s : SchedState) (events : List StrideEvent)
    (final : StrideSystem) (start : EqualStart ids prio s) (met : Throughout strideStep Unclamped ⟨s, fun _ => 0⟩ events)
    (ran : run strideStep ⟨s, fun _ => 0⟩ events = some final) :
    (∀ i ∈ ids, ∀ j ∈ ids, shareGap prio final.picks i j ≤ bigStride) ∧
      (clampsCurrent final.sched = false → ∃ next, schedule final.sched = some next) := by
  obtain ⟨base, inv⟩ := equal_start_inv ids prio s start
  have held := stride_run_inv ids prio base _ final events start.nodup start.notIdle inv met ran
  refine ⟨?_, fun ahead => ?_⟩
  · intro i inI j inJ
    have left := held.entries.balanced i j inI inJ
    have right := held.entries.balanced j i inJ inI
    simp only [charged, strideInc, if_pos (start.positive i inI), if_pos (start.positive j inJ)] at left right
    simp only [shareGap]
    omega
  · obtain ⟨next, returned, _⟩ := schedule_keeps ids prio base final start.nodup start.notIdle held ahead
    exact ⟨next, returned⟩

-- Two processes of priority 1 and 10 at stride 0, picked from the idle thread.
def pairPrio (second : BitVec 32) : ProcId → BitVec 32 := fun i => if i = 1 then 1 else second

def pairSched (second : BitVec 32) : SchedState where
  procs i := ⟨.runnable, 0, i = idleproc, i ≠ idleproc, maxTimeSlice, 0, pairPrio second i⟩
  rq := ⟨2, maxTimeSlice, .node (.node .nil 2 .nil) 1 .nil⟩
  current := idleproc

def pairRounds (count : Nat) : List StrideEvent :=
  .preempt :: (List.replicate count [.tick, .tick, .tick, .tick, .tick, .preempt]).flatten

theorem pair_equal_start (second : BitVec 32) (positive : 0 < second.toNat) : EqualStart [1, 2] (pairPrio second) (pairSched second) where
  nodup := by decide
  notIdle := by decide
  present := List.Perm.refl _
  runnable := fun _ _ => rfl
  priority := fun _ _ => rfl
  positive := by simp [pairPrio, positive]
  queued := by simp [pairSched, BinTree.toList, idleproc]
  equal := fun _ _ _ _ => rfl

-- With equal priorities the branch is never taken; here for four rounds.
theorem stride_proportional_share_pair :
    ∃ final, run strideStep ⟨pairSched 1, fun _ => 0⟩ (pairRounds 3) = some final ∧
      shareGap (pairPrio 1) final.picks 1 2 ≤ bigStride := by
  have returns : (run strideStep ⟨pairSched 1, fun _ => 0⟩ (pairRounds 3)).isSome = true := by decide +kernel
  obtain ⟨final, ran⟩ := Option.isSome_iff_exists.mp returns
  have met : Throughout strideStep Unclamped ⟨pairSched 1, fun _ => 0⟩ (pairRounds 3) := by decide +kernel
  have bounded := stride_proportional_share [1, 2] (pairPrio 1) (pairSched 1) (pairRounds 3) final
    (pair_equal_start 1 (by decide)) met ran
  exact ⟨final, ran, bounded.1 1 (by simp) 2 (by simp)⟩

-- The process of priority 10 is set forward to the stride of the other one
-- after every run, and gets no larger share than it.
theorem stride_share_unbounded :
    EqualStart [1, 2] (pairPrio 10) (pairSched 10) ∧
      ∃ final, run strideStep ⟨pairSched 10, fun _ => 0⟩ (pairRounds 3) = some final ∧
        bigStride < shareGap (pairPrio 10) final.picks 1 2 := by
  refine ⟨pair_equal_start 10 (by decide), ?_⟩
  have exceeded : ((run strideStep ⟨pairSched 10, fun _ => 0⟩ (pairRounds 3)).any fun final =>
      decide (bigStride < shareGap (pairPrio 10) final.picks 1 2)) = true := by decide +kernel
  obtain ⟨final, ran, gap⟩ := (Option.any_eq_true _ _).mp exceeded
  exact ⟨final, ran, of_decide_eq_true gap⟩

end Ucore.Sched
