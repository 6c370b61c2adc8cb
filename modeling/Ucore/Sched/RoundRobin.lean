import Ucore.Lib.Run
import Ucore.Proc.Family

set_option autoImplicit false

namespace Ucore.Sched

open Ucore.Lib Ucore.Proc

structure RoundRobin (P : Type) where
  runList : List P
  procNum : BitVec 32
  maxTimeSlice : Int

namespace RoundRobin

variable {P : Type} [DecidableEq P]

def init : RoundRobin P := ⟨[], 0, Ucore.Sched.maxTimeSlice⟩

-- A run_link that is not empty is one in the list.
def enqueue (rq : RoundRobin P) (procs : Procs P) (proc : P) : Except Fault (RoundRobin P × Procs P) := do
  check (proc ∉ rq.runList) .assertFailed
  let timeSlice :=
    if (procs proc).timeSlice = 0 ∨ (procs proc).timeSlice > rq.maxTimeSlice then rq.maxTimeSlice else (procs proc).timeSlice
  return ({ rq with runList := rq.runList ++ [proc], procNum := rq.procNum + 1 },
    procs.set proc { procs proc with timeSlice := timeSlice, onRq := true })

def dequeue (rq : RoundRobin P) (procs : Procs P) (proc : P) : Except Fault (RoundRobin P) := do
  check (proc ∈ rq.runList ∧ (procs proc).onRq = true) .assertFailed
  return { rq with runList := rq.runList.erase proc, procNum := rq.procNum - 1 }

def pickNext (rq : RoundRobin P) : Option P := rq.runList.head?

def procTick (procs : Procs P) (proc : P) : Procs P :=
  let timeSlice := if 0 < (procs proc).timeSlice then (procs proc).timeSlice - 1 else (procs proc).timeSlice
  procs.set proc { procs proc with
    timeSlice := timeSlice
    needResched := if timeSlice = 0 then true else (procs proc).needResched }

end RoundRobin

-- inUse lists idleproc and the processes on proc_list. registered holds of a
-- process from where it has put itself into a wait queue or the timer list until
-- it is taken out again: by whoever wakes it from there, or by itself after
-- schedule().
structure RunState (P : Type) where
  procs : Procs P
  rq : RoundRobin P
  current : P
  inUse : List P
  nrProcess : Int
  registered : P → Bool

-- What the current process calls, and the timer interrupt. visits are the
-- processes that do_exit looks at: the parent, and initproc for each child that is
-- a zombie. expired are the processes whose timers run out.
inductive RunCall (P : Type) where
  | fork (proc : Option P) (ready : Bool)
  | exit (errorCode : Int) (visits : List P)
  | block (waitState : BitVec 32) (registers : Bool)
  | resumed
  | wake (proc : P)
  | kill (proc : P)
  | reap (proc : P)
  | yield
  | schedule
  | tick (expired : List P)

namespace RunState

variable {P : Type} [DecidableEq P]

def enqueue (idle : P) (s : RunState P) (proc : P) : Except Fault (RunState P) :=
  if proc ≠ idle then do
    let (rq, procs) ← s.rq.enqueue s.procs proc
    return { s with rq := rq, procs := procs }
  else .ok s

def wakeupProc (idle : P) (s : RunState P) (proc : P) : Except Fault (RunState P) := do
  check ((s.procs proc).state ≠ .zombie) .assertFailed
  if (s.procs proc).state ≠ .runnable then
    let s := { s with procs := s.procs.set proc { s.procs proc with state := .runnable, waitState := 0 } }
    if proc ≠ s.current then s.enqueue idle proc else return s
  else return s

def schedule (idle : P) (s : RunState P) : Except Fault (RunState P) := do
  let s := { s with procs := s.procs.set s.current { s.procs s.current with needResched := false } }
  let s ← if (s.procs s.current).state = .runnable then s.enqueue idle s.current else .ok s
  match s.rq.pickNext with
  | some next =>
      let rq ← s.rq.dequeue s.procs next
      return { s with rq := rq, current := next }
  | none => return { s with current := idle }

def doFork (idle : P) (s : RunState P) (proc : Option P) (ready : Bool) : Except Fault (RunState P) :=
  if maxProcess ≤ s.nrProcess then .ok s
  else
    match proc with
    | none => .ok s
    | some proc =>
        let procs := s.procs.set proc { allocProc with parent := some s.current }
        let procs := procs.set s.current { procs s.current with waitState := 0 }
        if ready then wakeupProc idle { s with procs := procs, inUse := proc :: s.inUse, nrProcess := s.nrProcess + 1 } proc
        else .ok { s with procs := procs }

def wakeAll (idle : P) : List P → RunState P → Except Fault (RunState P)
  | [], s => .ok s
  | proc :: rest, s => s.wakeupProc idle proc >>= wakeAll idle rest

def visitAll (idle : P) : List P → RunState P → Except Fault (RunState P)
  | [], s => .ok s
  | proc :: rest, s =>
      (if (s.procs proc).waitState = wtChild then s.wakeupProc idle proc else .ok s) >>= visitAll idle rest

def doKill (idle : P) (s : RunState P) (proc : P) : Except Fault (RunState P) :=
  if (s.procs proc).exiting then .ok s
  else
    let s := { s with procs := s.procs.set proc { s.procs proc with exiting := true } }
    if interruptible (s.procs proc).waitState then s.wakeupProc idle proc else .ok s

-- run_timer_list.
def tick (idle : P) (s : RunState P) (expired : List P) : Except Fault (RunState P) := do
  let s ← wakeAll idle expired s
  let s := { s with registered := fun proc => if proc ∈ expired then false else s.registered proc }
  if s.current ≠ idle then return { s with procs := RoundRobin.procTick s.procs s.current }
  else return { s with procs := s.procs.set s.current { s.procs s.current with needResched := true } }

def call (idle : P) (s : RunState P) : RunCall P → Except Fault (RunState P)
  | .fork proc ready => s.doFork idle proc ready
  | .exit errorCode visits =>
      visitAll idle visits { s with procs := s.procs.set s.current { s.procs s.current with state := .zombie, exitCode := errorCode } }
  | .block waitState registers => .ok { s with
      procs := s.procs.set s.current { s.procs s.current with state := .sleeping, waitState := waitState }
      registered := Function.update s.registered s.current registers }
  | .resumed => .ok { s with registered := Function.update s.registered s.current false }
  | .wake proc => do
      let s ← s.wakeupProc idle proc
      return { s with registered := Function.update s.registered proc false }
  | .kill proc => s.doKill idle proc
  | .reap proc => .ok { s with inUse := s.inUse.erase proc, nrProcess := s.nrProcess - 1 }
  | .yield => .ok { s with procs := s.procs.set s.current { s.procs s.current with needResched := true } }
  | .schedule => s.schedule idle
  | .tick expired => s.tick idle expired

def step (idle : P) (s : RunState P) (event : RunCall P) : Option (RunState P) :=
  match s.call idle event with
  | .ok next => some next
  | .error _ => none

def Active (s : RunState P) : Prop := (s.procs s.current).state = .runnable

instance (s : RunState P) : Decidable s.Active := inferInstanceAs (Decidable (_ = _))

-- A process that has marked itself sleeping, or a zombie, goes on to schedule()
-- and nothing else; the timer interrupt may come at any time. idleproc neither
-- sleeps nor exits; the panic of do_exit for initproc is left out.
def Enabled (idle : P) (s : RunState P) : RunCall P → Prop
  | .fork proc _ => s.Active ∧ ∀ fresh ∈ proc, fresh ∉ s.inUse
  | .exit _ visits => s.Active ∧ s.current ≠ idle ∧ s.registered s.current = false ∧ ∀ proc ∈ visits, proc ∈ s.inUse
  | .block waitState _ => s.Active ∧ s.current ≠ idle ∧ s.registered s.current = false ∧ waitState ≠ 0
  | .resumed => s.Active
  | .wake proc => s.Active ∧ s.registered proc = true
  | .kill proc => s.Active ∧ proc ∈ s.inUse
  | .reap proc => s.Active ∧ proc ∈ s.inUse ∧ (s.procs proc).state = .zombie
  | .yield => s.Active
  | .schedule => True
  | .tick expired => ∀ proc ∈ expired, s.registered proc = true

instance (idle : P) (s : RunState P) (event : RunCall P) : Decidable (s.Enabled idle event) := by
  cases event <;> unfold Enabled <;> infer_instance

-- proc_init up to where idleproc creates initproc, after sched_init.
def boot (procs : Procs P) (idle : P) : RunState P :=
  ⟨procs.set idle { allocProc with pid := 0, state := .runnable, needResched := true }, .init, idle, [idle], 1, fun _ => false⟩

end RunState

end Ucore.Sched
