import Mathlib.Logic.Function.Basic
import Ucore.Sched.SkewHeap

set_option autoImplicit false

namespace Ucore.Sched

open Ucore.Lib

-- Processes are named by their address; 0 is the idle thread.
abbrev ProcId := Nat

def idleproc : ProcId := 0
def bigStride : Nat := 0x7FFFFFFF
def maxTimeSlice : Int := 5

inductive ProcState where
  | uninit
  | sleeping
  | runnable
  | zombie
deriving DecidableEq, Repr

-- The fields of proc_struct that the scheduler reads or writes. onRq is the
-- test proc->rq == rq: there is one run queue.
structure Proc where
  state : ProcState
  runs : Int
  needResched : Bool
  onRq : Bool
  timeSlice : Int
  lab6Stride : BitVec 32
  lab6Priority : BitVec 32
deriving DecidableEq, Repr

structure RunQueue where
  procNum : BitVec 32
  maxTimeSlice : Int
  lab6RunPool : BinTree ProcId
deriving DecidableEq, Repr

structure SchedState where
  procs : ProcId → Proc
  rq : RunQueue
  current : ProcId

def SchedState.setProc (s : SchedState) (proc : ProcId) (value : Proc) : SchedState :=
  { s with procs := Function.update s.procs proc value }

@[simp] theorem set_proc_here (s : SchedState) (proc : ProcId) (value : Proc) : (s.setProc proc value).procs proc = value := by
  simp [SchedState.setProc]

@[simp] theorem set_proc_elsewhere (s : SchedState) (proc other : ProcId) (value : Proc) (different : other ≠ proc) :
    (s.setProc proc value).procs other = s.procs other := by
  simp [SchedState.setProc, different]

@[simp] theorem set_proc_rq (s : SchedState) (proc : ProcId) (value : Proc) : (s.setProc proc value).rq = s.rq := rfl

@[simp] theorem set_proc_current (s : SchedState) (proc : ProcId) (value : Proc) : (s.setProc proc value).current = s.current := rfl

def procStrideCompF (procs : ProcId → Proc) (a b : ProcId) : Int :=
  let c := ((procs a).lab6Stride - (procs b).lab6Stride).toInt
  if 0 < c then 1 else if c = 0 then 0 else -1

def strideInit : RunQueue := ⟨0, maxTimeSlice, .nil⟩

-- The test that stride_enqueue makes before it moves a stride forward.
def strideBehindTop (s : SchedState) (proc : ProcId) : Bool :=
  match s.rq.lab6RunPool.root? with
  | none => false
  | some top => ((s.procs proc).lab6Stride - (s.procs top).lab6Stride).toInt < 0

def strideEnqueueStride (s : SchedState) (proc : ProcId) : BitVec 32 :=
  match s.rq.lab6RunPool.root? with
  | none => (s.procs proc).lab6Stride
  | some top => if strideBehindTop s proc then (s.procs top).lab6Stride else (s.procs proc).lab6Stride

def strideEnqueue (s : SchedState) (proc : ProcId) : SchedState :=
  let raised := s.setProc proc { s.procs proc with lab6Stride := strideEnqueueStride s proc }
  let pool := skewHeapInsert (procStrideCompF raised.procs) s.rq.lab6RunPool proc
  let entry := raised.procs proc
  let timeSlice :=
    if entry.timeSlice = 0 ∨ entry.timeSlice > s.rq.maxTimeSlice then s.rq.maxTimeSlice else entry.timeSlice
  { raised.setProc proc { entry with timeSlice := timeSlice, onRq := true } with
    rq := { s.rq with lab6RunPool := pool, procNum := s.rq.procNum + 1 } }

-- none is the failed assertion proc->rq == rq.
def strideDequeue (s : SchedState) (proc : ProcId) : Option SchedState :=
  if (s.procs proc).onRq then
    some { s.setProc proc { s.procs proc with onRq := false } with
      rq := { s.rq with
        lab6RunPool := skewHeapRemove (procStrideCompF s.procs) proc s.rq.lab6RunPool
        procNum := s.rq.procNum - 1 } }
  else none

def strideInc (priority : BitVec 32) : Nat :=
  if 0 < priority.toNat then bigStride / priority.toNat else bigStride

def stridePickNext (s : SchedState) : Option ProcId × SchedState :=
  match s.rq.lab6RunPool.root? with
  | none => (none, s)
  | some p =>
      let entry := s.procs p
      (some p, s.setProc p { entry with lab6Stride := entry.lab6Stride + BitVec.ofNat 32 (strideInc entry.lab6Priority) })

def strideProcTick (s : SchedState) (proc : ProcId) : SchedState :=
  let entry := s.procs proc
  let timeSlice := if 0 < entry.timeSlice then entry.timeSlice - 1 else entry.timeSlice
  s.setProc proc { entry with
    timeSlice := timeSlice
    needResched := if timeSlice = 0 then true else entry.needResched }

def schedClassEnqueue (s : SchedState) (proc : ProcId) : SchedState :=
  if proc = idleproc then s else strideEnqueue s proc

def schedClassProcTick (s : SchedState) (proc : ProcId) : SchedState :=
  if proc = idleproc then s.setProc proc { s.procs proc with needResched := true } else strideProcTick s proc

-- proc_run counts the run once more, and switches the address space and the context.
def procRun (s : SchedState) (proc : ProcId) : SchedState :=
  { s.setProc proc { s.procs proc with runs := (s.procs proc).runs + 1 } with current := proc }

-- The first half of schedule: the running process goes back to the queue.
def scheduleQueued (s : SchedState) : SchedState :=
  let cleared := s.setProc s.current { s.procs s.current with needResched := false }
  if (cleared.procs s.current).state = .runnable then schedClassEnqueue cleared s.current else cleared

-- The second half: count the run of the chosen process and switch to it.
def scheduleSwitch (s : SchedState) (next : ProcId) : SchedState :=
  let counted := s.setProc next { s.procs next with runs := (s.procs next).runs + 1 }
  if next = s.current then counted else procRun counted next

def schedule (s : SchedState) : Option SchedState :=
  match stridePickNext (scheduleQueued s) with
  | (none, chosen) => some (scheduleSwitch chosen idleproc)
  | (some next, chosen) => (strideDequeue chosen next).map fun ready => scheduleSwitch ready next

end Ucore.Sched
