import Ucore.Sync.Dining
import Ucore.Sync.Monitor

set_option autoImplicit false

namespace Ucore.Sync

open Ucore.Lib Ucore.Proc

-- What comes in phi_take_forks_condvar after phi_test_condvar: the comparison,
-- cond_wait and the way out.
inductive CondWait where
  | check
  | wait
  | leave
deriving DecidableEq, Repr

structure DiningCondvar (P : Type) where
  monitor : Monitor P P
  table : Table P CondWait

namespace DiningCondvar

variable {P : Type} [DecidableEq P]

-- A statement of the monitor, and what the philosopher does when it is done.
def monitorThen (s : DiningCondvar P) (i : P) (act : Act P) (table : Table P CondWait) : Except Fault (DiningCondvar P) := do
  let monitor ← s.monitor.call i act
  return ⟨monitor, table⟩

-- One statement of philosopher_using_condvar: its own when it is inside the monitor,
-- and those of down, cond_signal, cond_wait and up elsewhere. do_sleep only delays
-- it.
def call (seats : Seats P) (s : DiningCondvar P) (i : P) : Except Fault (DiningCondvar P) :=
  match s.monitor.pc i with
  | .outside =>
      match s.table.job i with
      | .thinking => s.monitorThen i .enter (s.table.goto i .hunger)
      | .eating => s.monitorThen i .enter (s.table.goto i .putting)
      | _ => .ok s
  | .inside =>
      match s.table.job i with
      | .thinking | .eating => .ok s
      | .hunger => .ok { s with table := s.table.takeForks i }
      | .test .signal turn => s.monitorThen i (.signal (Table.target seats i turn)) (s.table.phiTest seats .check i turn .signal)
      | .test place turn => .ok { s with table := s.table.phiTest seats .check i turn place }
      | .waits .check => .ok { s with table := s.table.goto i (.waits (if s.table.state i = .hungry then .wait else .leave)) }
      | .waits .wait => s.monitorThen i (.wait i) (s.table.goto i (.waits .leave))
      | .waits .leave => s.monitorThen i .leave (s.table.goto i .eating)
      | .putting => .ok { s with table := s.table.putForks i }
      | .leaving => s.monitorThen i .leave (s.table.goto i .thinking)
  | _ => s.monitorThen i .leave s.table

def step (seats : Seats P) (s : DiningCondvar P) (i : P) : Option (DiningCondvar P) :=
  if (s.monitor.waits.procs i).state = .runnable then
    match s.call seats i with
    | .ok next => some next
    | .error _ => none
  else none

-- monitor_init, with state_condvar all THINKING.
def boot (waits : Waits P) : DiningCondvar P := ⟨Monitor.boot waits, ⟨fun _ => .thinking, fun _ => .thinking⟩⟩

-- In the monitor, from the return of down to the up that leaves it, and not where
-- cond_wait has given it up.
def inside : At P → Bool
  | .outside | .enterSleep | .waitDown _ | .waitSleep _ => false
  | _ => true

def Inside (s : DiningCondvar P) (i : P) : Prop := inside (s.monitor.pc i) = true

-- Back from phi_take_forks_condvar, and phi_put_forks_condvar not called yet.
def Returned (s : DiningCondvar P) (i : P) : Prop := s.table.job i = .eating ∧ s.monitor.pc i = .outside

end DiningCondvar

end Ucore.Sync
