import Ucore.Lib.Run
import Ucore.Lib.Window
import Ucore.Sched.StrideFair

set_option autoImplicit false

namespace Ucore.Sched

open Ucore.Lib

-- The scheduling class under its callers. picked is the process that
-- stride_pick_next gave to schedule, which dequeues it before any other call.
structure StrideClass where
  sched : SchedState
  picked : Option ProcId

def StrideClass.queue (s : StrideClass) : List ProcId := s.sched.rq.lab6RunPool.toList

-- The guard of lab6_set_priority lets no 0 through.
def lab6SetPriority (s : SchedState) (proc : ProcId) (priority : BitVec 32) : SchedState :=
  s.setProc proc { s.procs proc with lab6Priority := if priority = 0 then 1 else priority }

-- alter stands for all that happens to a process outside the queue: it runs,
-- sleeps, exits, or its structure is a fresh one.
inductive ClassCall where
  | enqueue (proc : ProcId)
  | pick
  | dequeue (proc : ProcId)
  | setPriority (proc : ProcId) (priority : BitVec 32)
  | alter (proc : ProcId) (entry : Proc)

-- No caller enqueues a process that is queued, or dequeues one that is not.
def classStep (s : StrideClass) : ClassCall → Option StrideClass
  | .enqueue proc =>
      if proc ∉ s.queue ∧ s.picked = none then some { s with sched := strideEnqueue s.sched proc } else none
  | .pick =>
      if s.picked = none then
        match stridePickNext s.sched with
        | (chosen, sched) => some ⟨sched, chosen⟩
      else none
  | .dequeue proc =>
      if proc ∈ s.queue ∧ (s.picked = none ∨ s.picked = some proc) then (strideDequeue s.sched proc).map fun sched => ⟨sched, none⟩
      else none
  | .setPriority proc priority => some { s with sched := lab6SetPriority s.sched proc priority }
  | .alter proc entry => if proc ∈ s.queue then none else some { s with sched := s.sched.setProc proc entry }

def offset (procs : ProcId → Proc) (base : BitVec 32) (i : ProcId) : Nat := ((procs i).lab6Stride - base).toNat

-- All strides lie in the window of width BIG_STRIDE that starts at base.
def Windowed (procs : ProcId → Proc) (base : BitVec 32) (queue : List ProcId) : Prop :=
  ∀ i ∈ queue, offset procs base i ≤ bigStride

-- The comparison is a total preorder on the queue.
structure StrideOrder (procs : ProcId → Proc) (queue : List ProcId) : Prop where
  refl : ∀ i ∈ queue, procStrideCompF procs i i = 0
  sign : ∀ i ∈ queue, ∀ j ∈ queue, procStrideCompF procs i j = 1 ↔ procStrideCompF procs j i = -1
  total : ∀ i ∈ queue, ∀ j ∈ queue, procStrideCompF procs i j ≤ 0 ∨ procStrideCompF procs j i ≤ 0
  trans : ∀ i ∈ queue, ∀ j ∈ queue, ∀ k ∈ queue, procStrideCompF procs i j ≤ 0 → procStrideCompF procs j k ≤ 0 →
    procStrideCompF procs i k ≤ 0

theorem window_difference (procs : ProcId → Proc) (base : BitVec 32) (queue : List ProcId) (window : Windowed procs base queue)
    (a b : ProcId) (inA : a ∈ queue) (inB : b ∈ queue) :
    ((procs a).lab6Stride - (procs b).lab6Stride).toInt = (offset procs base a : Int) - offset procs base b := by
  have left := window a inA
  have right := window b inB
  have stride : ∀ i, (procs i).lab6Stride = base + BitVec.ofNat 32 (offset procs base i) := by
    intro i
    rw [offset, BitVec.ofNat_toNat, BitVec.setWidth_eq, add_sub_cancel]
  rw [stride a, stride b]
  simp only [bigStride] at left right
  apply wrapped_sub_to_int 32 base _ _ (by decide)
  · omega
  · omega

theorem comp_window (procs : ProcId → Proc) (base : BitVec 32) (queue : List ProcId) (window : Windowed procs base queue)
    (a b : ProcId) (inA : a ∈ queue) (inB : b ∈ queue) :
    procStrideCompF procs a b =
      if offset procs base b < offset procs base a then 1 else if offset procs base a = offset procs base b then 0 else -1 := by
  simp only [procStrideCompF, window_difference procs base queue window a b inA inB]
  split
  · rw [if_pos (by omega)]
  · rw [if_neg (by omega : ¬ offset procs base b < offset procs base a)]
    split
    · rw [if_pos (by omega)]
    · rw [if_neg (by omega)]

theorem comp_le_window (procs : ProcId → Proc) (base : BitVec 32) (queue : List ProcId) (window : Windowed procs base queue)
    (a b : ProcId) (inA : a ∈ queue) (inB : b ∈ queue) :
    procStrideCompF procs a b ≤ 0 ↔ offset procs base a ≤ offset procs base b := by
  rw [comp_window procs base queue window a b inA inB]
  split
  · simp
    omega
  · split
    · simp
      omega
    · simp
      omega

theorem window_order (procs : ProcId → Proc) (base : BitVec 32) (queue : List ProcId) (window : Windowed procs base queue) :
    StrideOrder procs queue where
  refl := by
    intro i inI
    simp [comp_window procs base queue window i i inI inI]
  sign := by
    intro i inI j inJ
    rw [comp_window procs base queue window i j inI inJ, comp_window procs base queue window j i inJ inI]
    split
    · simp
      omega
    · split <;> simp <;> omega
  total := by
    intro i inI j inJ
    rw [comp_le_window procs base queue window i j inI inJ, comp_le_window procs base queue window j i inJ inI]
    exact Nat.le_total _ _
  trans := by
    intro i inI j inJ k inK
    rw [comp_le_window procs base queue window i j inI inJ, comp_le_window procs base queue window j k inJ inK,
      comp_le_window procs base queue window i k inI inK]
    exact Nat.le_trans

theorem comp_lawful_window (procs : ProcId → Proc) (base : BitVec 32) (queue : List ProcId) (window : Windowed procs base queue) :
    CompLe (procStrideCompF procs) (fun a b => offset procs base a ≤ offset procs base b) (· ∈ queue) where
  before := by
    intro a b inA inB smaller
    exact (comp_le_window procs base queue window a b inA inB).mp (by omega)
  after := by
    intro a b inA inB larger
    rw [comp_window procs base queue window a b inA inB] at larger
    by_contra ahead
    apply larger
    rw [if_neg (by omega), if_neg (by omega)]
  trans := fun _ _ _ _ _ _ first second => Nat.le_trans first second

-- The window may start at any member that no other one is behind.
theorem rebase_offset (procs : ProcId → Proc) (base : BitVec 32) (top i : ProcId) (small : offset procs base i ≤ bigStride)
    (least : offset procs base top ≤ offset procs base i) :
    offset procs (procs top).lab6Stride i = offset procs base i - offset procs base top := by
  simp only [offset] at small least ⊢
  simp only [bigStride] at small
  bv_omega

-- The order of the pool. Between stride_pick_next and the dequeue the stride of
-- the root has moved on already, and only the rest is ordered.
def PoolOrdered (pool : BinTree ProcId) (picked : Option ProcId) (le : ProcId → ProcId → Prop) : Prop :=
  match picked with
  | none => pool.HeapOrdered le
  | some proc => ∃ left right, pool = .node left proc right ∧ left.HeapOrdered le ∧ right.HeapOrdered le

structure ClassInv (base : BitVec 32) (s : StrideClass) : Prop where
  distinct : s.queue.Nodup
  queued : ∀ i ∈ s.queue, (s.sched.procs i).onRq = true
  window : Windowed s.sched.procs base s.queue
  ordered : PoolOrdered s.sched.rq.lab6RunPool s.picked fun a b => offset s.sched.procs base a ≤ offset s.sched.procs base b

theorem heap_ordered_strides (procs next : ProcId → Proc) (base : BitVec 32) (pool : BinTree ProcId)
    (same : ∀ i ∈ pool.toList, (next i).lab6Stride = (procs i).lab6Stride)
    (ordered : pool.HeapOrdered fun a b => offset procs base a ≤ offset procs base b) :
    pool.HeapOrdered fun a b => offset next base a ≤ offset next base b := by
  refine BinTree.heap_ordered_congr _ _ pool (fun a inA b inB le => ?_) ordered
  rwa [offset, offset, same a inA, same b inB]

-- A write that leaves the strides and the membership of the queued processes alone.
theorem class_inv_congr (base : BitVec 32) (s : StrideClass) (next : SchedState) (inv : ClassInv base s)
    (pool : next.rq.lab6RunPool = s.sched.rq.lab6RunPool)
    (stride : ∀ i ∈ s.queue, (next.procs i).lab6Stride = (s.sched.procs i).lab6Stride)
    (onRq : ∀ i ∈ s.queue, (next.procs i).onRq = (s.sched.procs i).onRq) : ClassInv base { s with sched := next } where
  distinct := by
    rw [StrideClass.queue, pool]
    exact inv.distinct
  queued := by
    intro i member
    rw [StrideClass.queue, pool] at member
    exact (onRq i member).trans (inv.queued i member)
  window := by
    intro i member
    rw [StrideClass.queue, pool] at member
    rw [offset, stride i member]
    exact inv.window i member
  ordered := by
    have ordered := inv.ordered
    rw [pool]
    cases chosen : s.picked with
    | none =>
        rw [chosen] at ordered
        exact heap_ordered_strides _ _ base _ stride ordered
    | some proc =>
        rw [chosen] at ordered
        obtain ⟨left, right, shape, leftOrdered, rightOrdered⟩ := ordered
        refine ⟨left, right, shape, heap_ordered_strides _ _ base _ ?_ leftOrdered, heap_ordered_strides _ _ base _ ?_ rightOrdered⟩
        · intro i member
          exact stride i (by simp [StrideClass.queue, shape, BinTree.toList, member])
        · intro i member
          exact stride i (by simp [StrideClass.queue, shape, BinTree.toList, member])

-- At rest the window can start at the stride of the root.
theorem rebase_inv (base : BitVec 32) (s : StrideClass) (top : ProcId) (rest : s.picked = none) (inv : ClassInv base s)
    (root : s.sched.rq.lab6RunPool.root? = some top) : ClassInv (s.sched.procs top).lab6Stride s := by
  have ordered := inv.ordered
  rw [rest] at ordered
  have least : ∀ i ∈ s.queue, offset s.sched.procs base top ≤ offset s.sched.procs base i := fun i member =>
    BinTree.heap_root_least (fun a b => offset s.sched.procs base a ≤ offset s.sched.procs base b) _ top i (Nat.le_refl _) ordered
      root member
  have moved : ∀ i ∈ s.queue, offset s.sched.procs (s.sched.procs top).lab6Stride i =
      offset s.sched.procs base i - offset s.sched.procs base top := fun i member =>
    rebase_offset s.sched.procs base top i (inv.window i member) (least i member)
  refine ⟨inv.distinct, inv.queued, ?_, ?_⟩
  · intro i member
    have small := inv.window i member
    rw [moved i member]
    omega
  · rw [rest]
    refine BinTree.heap_ordered_congr _ _ _ (fun a inA b inB le => ?_) ordered
    rw [moved a inA, moved b inB]
    omega

-- The process that enters is at most BIG_STRIDE ahead of the root, or it is set
-- to the stride of the root.
theorem raised_window (base : BitVec 32) (s : StrideClass) (proc : ProcId) (rest : s.picked = none) (inv : ClassInv base s)
    (away : proc ∉ s.queue) : ∃ base', Windowed
      (s.sched.setProc proc { s.sched.procs proc with lab6Stride := strideEnqueueStride s.sched proc }).procs base' (proc :: s.queue) ∧
      s.sched.rq.lab6RunPool.HeapOrdered fun a b =>
        offset (s.sched.setProc proc { s.sched.procs proc with lab6Stride := strideEnqueueStride s.sched proc }).procs base' a ≤
          offset (s.sched.setProc proc { s.sched.procs proc with lab6Stride := strideEnqueueStride s.sched proc }).procs base' b := by
  have others : ∀ i ∈ s.queue, (s.sched.setProc proc
      { s.sched.procs proc with lab6Stride := strideEnqueueStride s.sched proc }).procs i = s.sched.procs i := by
    intro i member
    have apart : i ≠ proc := by
      rintro rfl
      exact away member
    rw [set_proc_elsewhere _ _ _ _ apart]
  cases root : s.sched.rq.lab6RunPool.root? with
  | none =>
      have empty := (BinTree.root_none _).mp root
      refine ⟨strideEnqueueStride s.sched proc, ?_, ?_⟩
      · intro i member
        simp only [StrideClass.queue, empty, BinTree.toList, List.mem_singleton] at member
        subst member
        simp [offset]
      · rw [empty]
        trivial
  | some top =>
      have based := rebase_inv base s top rest inv root
      have ordered := based.ordered
      rw [rest] at ordered
      refine ⟨(s.sched.procs top).lab6Stride, ?_, heap_ordered_strides _ _ _ _ (fun i member => by rw [others i member]) ordered⟩
      intro i member
      rcases List.mem_cons.mp member with here | queued
      · subst here
        simp only [offset, set_proc_here, strideEnqueueStride, root]
        by_cases behind : strideBehindTop s.sched i
        · simp [behind]
        · rw [if_neg behind]
          simp only [strideBehindTop, root, decide_eq_true_eq] at behind
          have ahead : ((s.sched.procs i).lab6Stride - (s.sched.procs top).lab6Stride).msb = false := by
            rw [BitVec.msb_eq_toInt]
            simpa using behind
          have bound := BitVec.toNat_lt_of_msb_false ahead
          simp only [bigStride]
          omega
      · rw [offset, others i queued]
        exact based.window i queued

theorem enqueue_inv (base : BitVec 32) (s : StrideClass) (proc : ProcId) (rest : s.picked = none) (inv : ClassInv base s)
    (away : proc ∉ s.queue) : ∃ base', ClassInv base' { s with sched := strideEnqueue s.sched proc } := by
  obtain ⟨base', window, ordered⟩ := raised_window base s proc rest inv away
  generalize entered : s.sched.setProc proc { s.sched.procs proc with lab6Stride := strideEnqueueStride s.sched proc } = raised
    at window ordered
  have strides : ∀ i, ((strideEnqueue s.sched proc).procs i).lab6Stride = (raised.procs i).lab6Stride := by
    intro i
    rw [← entered, strideEnqueue]
    by_cases here : i = proc
    · subst here
      simp only [set_proc_here]
    · simp only [set_proc_elsewhere _ _ _ _ here]
  have pool : (strideEnqueue s.sched proc).rq.lab6RunPool = skewHeapInsert (procStrideCompF raised.procs) s.sched.rq.lab6RunPool proc := by
    rw [← entered]
    rfl
  have members : (strideEnqueue s.sched proc).rq.lab6RunPool.toList.Perm (proc :: s.queue) := by
    rw [pool]
    exact skew_heap_insert_perm _ _ _
  refine ⟨base', ?_, ?_, ?_, ?_⟩
  · exact members.nodup_iff.mpr (List.nodup_cons.mpr ⟨away, inv.distinct⟩)
  · intro i member
    have inside := members.mem_iff.mp member
    by_cases here : i = proc
    · subst here
      simp [strideEnqueue]
    · have queued := inv.queued i ((List.mem_cons.mp inside).resolve_left here)
      simpa [strideEnqueue, here] using queued
  · intro i member
    rw [offset, strides i]
    exact window i (members.mem_iff.mp member)
  · rw [rest]
    have lawful := comp_lawful_window raised.procs base' (proc :: s.queue) window
    refine heap_ordered_strides raised.procs _ base' _ (fun i _ => strides i) ?_
    rw [pool]
    exact skew_heap_insert_ordered _ _ (· ∈ proc :: s.queue) lawful _ proc (fun _ member => List.mem_cons_of_mem proc member)
      List.mem_cons_self ordered

theorem pick_inv (base : BitVec 32) (s : StrideClass) (rest : s.picked = none) (inv : ClassInv base s) :
    ∃ base', ClassInv base' ⟨(stridePickNext s.sched).2, (stridePickNext s.sched).1⟩ := by
  cases root : s.sched.rq.lab6RunPool.root? with
  | none =>
      refine ⟨base, ?_⟩
      simp only [stridePickNext, root]
      obtain ⟨sched, picked⟩ := s
      obtain rfl : picked = none := rest
      exact inv
  | some top =>
      have based := rebase_inv base s top rest inv root
      obtain ⟨left, right, shape⟩ : ∃ left right, s.sched.rq.lab6RunPool = .node left top right := by
        cases tree : s.sched.rq.lab6RunPool with
        | nil => simp [tree, BinTree.root?] at root
        | node left item right =>
            simp only [tree, BinTree.root?, Option.some.injEq] at root
            exact ⟨left, right, by rw [root]⟩
      have distinct := inv.distinct
      rw [StrideClass.queue, shape, BinTree.toList, List.nodup_cons, List.mem_append, not_or] at distinct
      obtain ⟨⟨notLeft, notRight⟩, _⟩ := distinct
      have ordered := based.ordered
      rw [rest, PoolOrdered, shape] at ordered
      simp only [stridePickNext, root]
      have others : ∀ i, i ≠ top → ((s.sched.setProc top { s.sched.procs top with
          lab6Stride := (s.sched.procs top).lab6Stride + BitVec.ofNat 32 (strideInc (s.sched.procs top).lab6Priority) }).procs i) =
            s.sched.procs i := fun i apart => set_proc_elsewhere _ _ _ _ apart
      refine ⟨(s.sched.procs top).lab6Stride, inv.distinct, ?_, ?_, left, right, shape, ?_, ?_⟩
      · intro i member
        by_cases here : i = top
        · subst here
          rw [set_proc_here]
          exact inv.queued i member
        · rw [others i here]
          exact inv.queued i member
      · intro i member
        by_cases here : i = top
        · subst here
          have small := stride_inc_le (s.sched.procs i).lab6Priority
          rw [offset, set_proc_here, add_sub_cancel_left, BitVec.toNat_ofNat]
          exact (Nat.mod_le _ _).trans small
        · rw [offset, others i here]
          exact based.window i member
      · refine heap_ordered_strides s.sched.procs _ _ left (fun i member => ?_) ordered.2.2.1
        rw [others i fun same => notLeft (same ▸ member)]
      · refine heap_ordered_strides s.sched.procs _ _ right (fun i member => ?_) ordered.2.2.2
        rw [others i fun same => notRight (same ▸ member)]

theorem dequeue_inv (base : BitVec 32) (s : StrideClass) (proc : ProcId) (inv : ClassInv base s) (member : proc ∈ s.queue)
    (chosen : s.picked = none ∨ s.picked = some proc) : ∃ next, strideDequeue s.sched proc = some next ∧ ClassInv base ⟨next, none⟩ := by
  obtain ⟨next, taken, current, pool, _, _, stride, others⟩ := stride_dequeue_some s.sched proc (inv.queued proc member)
  have lawful := comp_lawful_window s.sched.procs base s.queue inv.window
  have members : (proc :: next.rq.lab6RunPool.toList).Perm s.queue := by
    rw [pool]
    exact skew_heap_remove_perm _ proc _ inv.distinct member
  have distinct := members.nodup_iff.mpr inv.distinct
  refine ⟨next, taken, (List.nodup_cons.mp distinct).2, ?_, ?_, ?_⟩
  · intro i inside
    have apart : i ≠ proc := by
      rintro rfl
      exact (List.nodup_cons.mp distinct).1 inside
    rw [others i apart]
    exact inv.queued i (members.mem_iff.mp (List.mem_cons_of_mem proc inside))
  · intro i inside
    rw [offset, stride i]
    exact inv.window i (members.mem_iff.mp (List.mem_cons_of_mem proc inside))
  · have ordered := inv.ordered
    refine heap_ordered_strides s.sched.procs _ base _ (fun i _ => stride i) ?_
    rw [pool]
    rcases chosen with atRest | picked
    · rw [atRest] at ordered
      exact skew_heap_remove_ordered _ _ (· ∈ s.queue) lawful proc _ (fun _ inside => inside) ordered
    · rw [picked] at ordered
      obtain ⟨left, right, shape, leftOrdered, rightOrdered⟩ := ordered
      rw [shape, skew_heap_remove_root]
      refine skew_heap_merge_ordered _ _ (· ∈ s.queue) lawful left right ?_ ?_ leftOrdered rightOrdered
      · intro i inside
        simp [StrideClass.queue, shape, BinTree.toList, inside]
      · intro i inside
        simp [StrideClass.queue, shape, BinTree.toList, inside]

theorem class_step_inv (base : BitVec 32) (s next : StrideClass) (call : ClassCall) (inv : ClassInv base s)
    (taken : classStep s call = some next) : ∃ base', ClassInv base' next := by
  cases call with
  | enqueue proc =>
      simp only [classStep] at taken
      split at taken
      case isTrue enabled =>
        obtain rfl := Option.some.inj taken
        exact enqueue_inv base s proc enabled.2 inv enabled.1
      case isFalse => simp at taken
  | pick =>
      simp only [classStep] at taken
      split at taken
      case isTrue enabled =>
        obtain rfl := Option.some.inj taken
        exact pick_inv base s enabled inv
      case isFalse => simp at taken
  | dequeue proc =>
      simp only [classStep] at taken
      split at taken
      case isTrue enabled =>
        obtain ⟨after, dequeued, kept⟩ := dequeue_inv base s proc inv enabled.1 enabled.2
        rw [dequeued, Option.map_some] at taken
        obtain rfl := Option.some.inj taken
        exact ⟨base, kept⟩
      case isFalse => simp at taken
  | setPriority proc priority =>
      obtain rfl := Option.some.inj taken
      have field : ∀ {β : Type} (field : Proc → β), (∀ entry priority, field { entry with lab6Priority := priority } = field entry) →
          ∀ i, field ((lab6SetPriority s.sched proc priority).procs i) = field (s.sched.procs i) := by
        intro β field same i
        exact set_proc_field field s.sched proc _ (same _ _) i
      exact ⟨base, class_inv_congr base s _ inv rfl (fun i _ => field Proc.lab6Stride (fun _ _ => rfl) i)
        fun i _ => field Proc.onRq (fun _ _ => rfl) i⟩
  | alter proc entry =>
      simp only [classStep] at taken
      split at taken
      case isTrue => simp at taken
      case isFalse away =>
        obtain rfl := Option.some.inj taken
        have others : ∀ i ∈ s.queue, (s.sched.setProc proc entry).procs i = s.sched.procs i := by
          intro i member
          have apart : i ≠ proc := by
            rintro rfl
            exact away member
          exact set_proc_elsewhere _ _ _ _ apart
        exact ⟨base, class_inv_congr base s _ inv rfl (fun i member => by rw [others i member]) fun i member => by rw [others i member]⟩

theorem class_run_inv (start : SchedState) (fresh : start.rq = strideInit) (calls : List ClassCall) (final : StrideClass)
    (ran : run classStep ⟨start, none⟩ calls = some final) : ∃ base, ClassInv base final := by
  have empty : start.rq.lab6RunPool = .nil := by rw [fresh, strideInit]
  have initial : ∃ base, ClassInv base ⟨start, none⟩ := by
    refine ⟨0, ?_, ?_, ?_, ?_⟩
    · simp [StrideClass.queue, empty, BinTree.toList]
    · simp [StrideClass.queue, empty, BinTree.toList]
    · simp [StrideClass.queue, empty, BinTree.toList, Windowed]
    · simp [empty, PoolOrdered, BinTree.HeapOrdered]
  refine run_invariant classStep (fun _ _ => True) (fun s => ∃ base, ClassInv base s) ?_ calls _ final initial
    (throughout_trivial _ _ (fun _ _ => trivial) calls _) ran
  rintro s call next ⟨base, inv⟩ _ taken
  exact class_step_inv base s next call inv taken

-- stride_pick_next chooses a process of least stride in the window, and one
-- unless the queue is empty.
def PicksLeast (base : BitVec 32) (s : StrideClass) : Prop :=
  match (stridePickNext s.sched).1 with
  | none => s.queue = []
  | some next => next ∈ s.queue ∧ ∀ i ∈ s.queue, offset s.sched.procs base next ≤ offset s.sched.procs base i

theorem picks_least (base : BitVec 32) (s : StrideClass) (rest : s.picked = none) (inv : ClassInv base s) : PicksLeast base s := by
  have ordered := inv.ordered
  rw [rest] at ordered
  cases root : s.sched.rq.lab6RunPool.root? with
  | none =>
      have empty := (BinTree.root_none _).mp root
      simp only [PicksLeast, stridePickNext, root]
      simp [StrideClass.queue, empty, BinTree.toList]
  | some top =>
      simp only [PicksLeast, stridePickNext, root]
      exact ⟨BinTree.root_mem _ _ root, fun i member =>
        BinTree.heap_root_least (fun a b => offset s.sched.procs base a ≤ offset s.sched.procs base b) _ top i (Nat.le_refl _)
          ordered root member⟩

theorem stride_wraps_soundly (start : SchedState) (fresh : start.rq = strideInit) (calls : List ClassCall) (final : StrideClass)
    (ran : run classStep ⟨start, none⟩ calls = some final) : ∃ base, Windowed final.sched.procs base final.queue ∧
      StrideOrder final.sched.procs final.queue ∧ (final.picked = none → PicksLeast base final) := by
  obtain ⟨base, inv⟩ := class_run_inv start fresh calls final ran
  exact ⟨base, inv.window, window_order _ base _ inv.window, fun rest => picks_least base final rest inv⟩

-- Two processes enter, one with a stride that has wrapped around and one that
-- slept since; the first one runs once.
def wrappedSched : SchedState where
  procs i := ⟨.runnable, 0, false, false, 0, if i = 1 then 0xFFFFFFFF else 0x10, 1⟩
  rq := strideInit
  current := idleproc

def wrappedCalls : List ClassCall := [.enqueue 1, .enqueue 2, .pick, .dequeue 1, .setPriority 1 0, .enqueue 1]

theorem stride_wraps_soundly_twice : ∃ (final : StrideClass) (base : BitVec 32),
    run classStep ⟨wrappedSched, none⟩ wrappedCalls = some final ∧ Windowed final.sched.procs base final.queue := by
  have returns : (run classStep ⟨wrappedSched, none⟩ wrappedCalls).isSome = true := by decide +kernel
  obtain ⟨final, ran⟩ := Option.isSome_iff_exists.mp returns
  obtain ⟨base, window, _⟩ := stride_wraps_soundly wrappedSched rfl wrappedCalls final ran
  exact ⟨final, base, ran, window⟩

end Ucore.Sched
