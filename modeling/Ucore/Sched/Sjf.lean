import Ucore.Lib.Run
import Ucore.Sched.Stride

set_option autoImplicit false

namespace Ucore.Sched.Sjf

open Ucore.Lib

-- predicted_burst_time is another name of lab6_priority.
def burst (procs : ProcId → Proc) (proc : ProcId) : BitVec 32 := (procs proc).lab6Priority

structure SjfQueue where
  runList : List ProcId
  procNum : BitVec 32
deriving DecidableEq, Repr

structure SjfState where
  procs : ProcId → Proc
  rq : SjfQueue
  current : ProcId

def sjfInit : SjfQueue := ⟨[], 0⟩

-- The walk from the head of the list to the place of proc.
def sjfPlace (procs : ProcId → Proc) (proc : ProcId) : List ProcId → List ProcId
  | [] => [proc]
  | p :: rest => if burst procs proc < burst procs p then proc :: p :: rest else p :: sjfPlace procs proc rest

def SjfState.setProc (s : SjfState) (proc : ProcId) (value : Proc) : SjfState :=
  { s with procs := Function.update s.procs proc value }

def defaultBurst : BitVec 32 := 5

def sjfEnqueue (s : SjfState) (proc : ProcId) : SjfState :=
  let s := if burst s.procs proc = 0 then s.setProc proc { s.procs proc with lab6Priority := defaultBurst } else s
  { s with rq := ⟨sjfPlace s.procs proc s.rq.runList, s.rq.procNum + 1⟩ }

def sjfDequeue (s : SjfState) (proc : ProcId) : SjfState :=
  { s with rq := ⟨s.rq.runList.erase proc, s.rq.procNum - 1⟩ }

def sjfPickNext (rq : SjfQueue) : Option ProcId := rq.runList.head?

def sjfProcTick (s : SjfState) (proc : ProcId) : SjfState :=
  s.setProc proc { s.procs proc with lab6Priority := burst s.procs proc - 1, needResched := true }

namespace SjfState

def schedClassEnqueue (s : SjfState) (proc : ProcId) : SjfState := if proc ≠ idleproc then sjfEnqueue s proc else s

def schedClassProcTick (s : SjfState) (proc : ProcId) : SjfState :=
  if proc ≠ idleproc then sjfProcTick s proc else s.setProc proc { s.procs proc with needResched := true }

-- none is the failed assertion.
def wakeupProc (s : SjfState) (proc : ProcId) : Option SjfState :=
  if (s.procs proc).state = .zombie then none
  else if (s.procs proc).state ≠ .runnable then
    let s := s.setProc proc { s.procs proc with state := .runnable }
    some (if proc ≠ s.current then s.schedClassEnqueue proc else s)
  else some s

-- proc_run counts the run once more, and switches the context.
def procRun (s : SjfState) (proc : ProcId) : SjfState :=
  { s.setProc proc { s.procs proc with runs := (s.procs proc).runs + 1 } with current := proc }

-- The choice in schedule(), after the running process went back to the queue.
def chooseNext (s : SjfState) : SjfState :=
  let (next, s) :=
    match sjfPickNext s.rq with
    | some next => (next, sjfDequeue s next)
    | none => (idleproc, s)
  let s := s.setProc next { s.procs next with runs := (s.procs next).runs + 1 }
  if next ≠ s.current then s.procRun next else s

def schedule (s : SjfState) : SjfState :=
  let s := s.setProc s.current { s.procs s.current with needResched := false }
  chooseNext (if (s.procs s.current).state = .runnable then s.schedClassEnqueue s.current else s)

-- trap() on a timer interrupt. The branch of PF_EXITING goes on to do_exit, which
-- is leave with the state of a zombie.
def trapTimer (s : SjfState) (inKernel : Bool) : SjfState :=
  let s := s.schedClassProcTick s.current
  if ¬ inKernel ∧ (s.procs s.current).needResched then s.schedule else s

end SjfState

-- leave is what the running process does before it calls schedule(): it sleeps or
-- has exited.
inductive SjfCall where
  | wakeup (proc : ProcId)
  | schedule
  | leave (state : ProcState)
  | timer (inKernel : Bool)
deriving DecidableEq, Repr

def SjfState.call (s : SjfState) : SjfCall → Option SjfState
  | .wakeup proc => s.wakeupProc proc
  | .schedule => some s.schedule
  | .leave state => some (s.setProc s.current { s.procs s.current with state := state })
  | .timer inKernel => some (s.trapTimer inKernel)

-- The operations of the scheduling class, with what the queue was told: the burst
-- that each process last went in with and its turn, and its ticks since then.
structure SjfRun where
  sched : SjfState
  inserted : ProcId → BitVec 32
  arrival : ProcId → Nat
  clock : Nat
  ticks : ProcId → Nat

inductive SjfEvent where
  | enqueue (proc : ProcId)
  | dequeue (proc : ProcId)
  | pick
  | tick (proc : ProcId)
deriving DecidableEq, Repr

namespace SjfRun

def start (procs : ProcId → Proc) (current : ProcId) : SjfRun := ⟨⟨procs, sjfInit, current⟩, burst procs, fun _ => 0, 0, fun _ => 0⟩

def step (r : SjfRun) : SjfEvent → Option SjfRun
  | .enqueue proc =>
      let sched := sjfEnqueue r.sched proc
      some {
        sched := sched
        inserted := Function.update r.inserted proc (burst sched.procs proc)
        arrival := Function.update r.arrival proc r.clock
        clock := r.clock + 1
        ticks := Function.update r.ticks proc 0 }
  | .dequeue proc => some { r with sched := sjfDequeue r.sched proc }
  | .pick => some r
  | .tick proc => some { r with sched := sjfProcTick r.sched proc, ticks := Function.update r.ticks proc (r.ticks proc + 1) }

-- A process is on the queue or has the processor, and only then gets its ticks.
def Enabled (r : SjfRun) : SjfEvent → Prop
  | .enqueue proc => proc ∉ r.sched.rq.runList
  | .dequeue proc => proc ∈ r.sched.rq.runList
  | .pick => True
  | .tick proc => proc ∉ r.sched.rq.runList

instance (r : SjfRun) (event : SjfEvent) : Decidable (r.Enabled event) := by
  cases event <;> unfold Enabled <;> infer_instance

def Before (r : SjfRun) (first second : ProcId) : Prop :=
  r.inserted first < r.inserted second ∨ r.inserted first = r.inserted second ∧ r.arrival first < r.arrival second

structure Ordered (r : SjfRun) : Prop where
  sorted : r.sched.rq.runList.Pairwise r.Before
  picks : r.sched.rq.runList ≠ [] → ∃ proc, sjfPickNext r.sched.rq = some proc
  least : ∀ proc, sjfPickNext r.sched.rq = some proc →
    proc ∈ r.sched.rq.runList ∧ ∀ other ∈ r.sched.rq.runList, burst r.sched.procs proc ≤ burst r.sched.procs other

-- The only burst that a step raises is one of zero, in its enqueue.
def BurstKept (r : SjfRun) (event : SjfEvent) (next : SjfRun) : Prop :=
  ∀ proc, burst next.sched.procs proc ≤ burst r.sched.procs proc ∨
    event = .enqueue proc ∧ burst r.sched.procs proc = 0 ∧ burst next.sched.procs proc = defaultBurst

-- The tick is still within the burst that the process last went in with.
def TickFits (r : SjfRun) : SjfEvent → Prop
  | .tick proc => r.ticks proc < (r.inserted proc).toNat
  | _ => True

instance (r : SjfRun) (event : SjfEvent) : Decidable (r.TickFits event) := by
  cases event <;> unfold TickFits <;> infer_instance

end SjfRun

end Ucore.Sched.Sjf
