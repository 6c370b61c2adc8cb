import Ucore.Lib.Run
import Ucore.Lib.Sums
import Ucore.Proc.Proc

set_option autoImplicit false

namespace Ucore.Proc

open Ucore.Lib

structure Timer (P : Type) where
  expires : BitVec 32
  proc : P

-- Timers are named by their addresses; list is timer_list from its head on.
-- inSleep is the timer of a process that is inside do_sleep, between add_timer
-- and the del_timer that follows schedule().
structure TimerState (T P : Type) where
  timers : T → Timer P
  list : List T
  procs : Procs P
  inSleep : P → Option T

inductive TimerCall (T P : Type) where
  | sleep (proc : P) (timer : T) (time : BitVec 32)
  | resume (proc : P) (timer : T)
  | delete (timer : T)
  | kill (proc : P)
  | other (proc : P) (entry : ProcStruct P)
  | tick

namespace TimerState

variable {T P : Type} [DecidableEq T] [DecidableEq P]

def setExpires (s : TimerState T P) (timer : T) (expires : BitVec 32) : TimerState T P :=
  { s with timers := Function.update s.timers timer { s.timers timer with expires := expires } }

-- The search of add_timer, from the position le on: the differences change on
-- the way, and the timer is put before the place where the search stops.
def addFrom (s : TimerState T P) (timer : T) : List T → TimerState T P × List T
  | [] => (s, [timer])
  | next :: rest =>
      if (s.timers timer).expires < (s.timers next).expires then
        (s.setExpires next ((s.timers next).expires - (s.timers timer).expires), timer :: next :: rest)
      else
        let result := addFrom (s.setExpires timer ((s.timers timer).expires - (s.timers next).expires)) timer rest
        (result.1, next :: result.2)

def addTimer (s : TimerState T P) (timer : T) : Except Fault (TimerState T P) := do
  check (0 < (s.timers timer).expires) .assertFailed
  check (timer ∉ s.list) .assertFailed
  let result := s.addFrom timer s.list
  return { result.1 with list := result.2 }

def nextTimer (timer : T) : List T → Option T
  | [] => none
  | first :: rest => if first = timer then rest.head? else nextTimer timer rest

def delTimer (s : TimerState T P) (timer : T) : TimerState T P :=
  if timer ∈ s.list then
    let s' :=
      if (s.timers timer).expires ≠ 0 then
        match nextTimer timer s.list with
        | some next => s.setExpires next ((s.timers next).expires + (s.timers timer).expires)
        | none => s
      else s
    { s' with list := s.list.erase timer }
  else s

-- One round of the loop in run_timer_list: the timer has run out.
def expire (s : TimerState T P) (timer : T) : Except Fault (TimerState T P) := do
  let proc := (s.timers timer).proc
  check ((s.procs proc).waitState = 0 || interruptible (s.procs proc).waitState) .assertFailed
  let procs ← wakeupState s.procs proc
  return delTimer { s with procs := procs } timer

-- The loop, from a timer on; the timers that woke their process are collected.
def expireFrom (s : TimerState T P) : List T → Except Fault (List T × TimerState T P)
  | [] => .ok ([], s)
  | timer :: rest =>
      if (s.timers timer).expires = 0 then do
        let s ← s.expire timer
        let (woken, s) ← expireFrom s rest
        return (timer :: woken, s)
      else .ok ([], s)

-- The tick of the scheduling class that ends run_timer_list is RoundRobin's.
def runTimerList (s : TimerState T P) : Except Fault (List T × TimerState T P) :=
  match s.list with
  | [] => .ok ([], s)
  | timer :: rest => do
      check ((s.timers timer).expires ≠ 0) .assertFailed
      (s.setExpires timer ((s.timers timer).expires - 1)).expireFrom (timer :: rest)

-- do_sleep up to schedule(), and what follows it.
def doSleep (s : TimerState T P) (proc : P) (timer : T) (time : BitVec 32) : Except Fault (TimerState T P) :=
  if time = 0 then .ok s
  else
    addTimer ⟨Function.update s.timers timer ⟨time, proc⟩, s.list,
      s.procs.set proc { s.procs proc with state := .sleeping, waitState := wtTimer }, Function.update s.inSleep proc (some timer)⟩ timer

def call (s : TimerState T P) : TimerCall T P → Except Fault (List T × TimerState T P)
  | .sleep proc timer time => (s.doSleep proc timer time).map fun s => ([], s)
  | .resume proc timer => .ok ([], { s.delTimer timer with inSleep := Function.update s.inSleep proc none })
  | .delete timer => .ok ([], s.delTimer timer)
  | .kill proc => (killProc s.procs proc).map fun result => ([], { s with procs := result.2 })
  | .other proc entry => .ok ([], { s with procs := s.procs.set proc entry })
  | .tick => s.runTimerList

-- How often each timer wakes its process in the call, and the state after it.
def step (s : TimerState T P) (timerCall : TimerCall T P) : Option ((T → Nat) × TimerState T P) :=
  match s.call timerCall with
  | .ok (woken, next) => some (fun timer => woken.count timer, next)
  | .error _ => none

-- The timer is a local variable of do_sleep: no process that is inside do_sleep
-- has it. A process inside do_sleep does nothing else; other stands for all that
-- can happen to one that is not.
def Enabled (s : TimerState T P) : TimerCall T P → Prop
  | .sleep proc timer _ => s.inSleep proc = none ∧ s.inSleep (s.timers timer).proc ≠ some timer
  | .resume proc timer => s.inSleep proc = some timer
  | .delete _ => True
  | .kill proc => (s.procs proc).state ≠ .zombie
  | .other proc _ => s.inSleep proc = none
  | .tick => True

instance (s : TimerState T P) (timerCall : TimerCall T P) : Decidable (s.Enabled timerCall) := by
  cases timerCall <;> unfold Enabled <;> infer_instance

def deltas (s : TimerState T P) : List (T × Nat) := s.list.map fun timer => (timer, (s.timers timer).expires.toNat)

-- The remaining ticks of a timer: the sum of the differences up to it.
def remaining (s : TimerState T P) : T → Option Nat := DeltaList.due s.deltas

end TimerState

-- What the timer list is for: a map from the pending timers to their remaining
-- ticks. A tick wakes the process of a timer whose last tick it is.
def remainingSpec {T P : Type} [DecidableEq T] (pending : T → Option Nat) : TimerCall T P → (T → Nat) × (T → Option Nat)
  | .sleep _ timer time => (fun _ => 0, if time = 0 then pending else Function.update pending timer (some time.toNat))
  | .resume _ timer => (fun _ => 0, Function.update pending timer none)
  | .delete timer => (fun _ => 0, Function.update pending timer none)
  | .kill _ => (fun _ => 0, pending)
  | .other _ _ => (fun _ => 0, pending)
  | .tick =>
      (fun timer => if pending timer = some 1 then 1 else 0,
        fun timer => (pending timer).bind fun time => if time = 1 then none else some (time - 1))

end Ucore.Proc
