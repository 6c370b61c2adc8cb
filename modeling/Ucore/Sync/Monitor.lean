import Mathlib.Data.Fintype.Card
import Ucore.Sync.Sem

set_option autoImplicit false

namespace Ucore.Sync

open Ucore.Lib Ucore.Proc

inductive SemId (C : Type) where
  | mutex
  | next
  | cv (c : C)
deriving DecidableEq, Repr

-- Where a process is: outside of the monitor, inside a routine of it, or between
-- two statements of cond_signal, cond_wait or the leaving code. Each constructor
-- names the statement that comes next; the Sleep ones are inside down.
inductive At (C : Type) where
  | outside
  | enterSleep
  | inside
  | signalCount (c : C)
  | signalUp (c : C)
  | signalDown
  | signalSleep
  | signalUncount
  | waitCount (c : C)
  | waitTest (c : C)
  | waitUpNext (c : C)
  | waitUpMutex (c : C)
  | waitDown (c : C)
  | waitSleep (c : C)
  | waitUncount (c : C)
  | leaveTest
  | leaveUpNext
  | leaveUpMutex
deriving DecidableEq, Repr

-- What a process does next where its routine leaves it a choice.
inductive Act (C : Type) where
  | enter
  | signal (c : C)
  | wait (c : C)
  | leave
deriving DecidableEq, Repr

structure Monitor (P C : Type) where
  sems : SemId C → Semaphore P
  waits : Waits P
  nextCount : Int
  count : C → Int
  pc : P → At C

namespace Monitor

variable {P C : Type} [DecidableEq P] [DecidableEq C]

-- Inside down, and where a process goes on when it returns.
def sleepAt : SemId C → At C
  | .mutex => .enterSleep
  | .next => .signalSleep
  | .cv c => .waitSleep c

def gotAt : SemId C → At C
  | .mutex => .inside
  | .next => .signalUncount
  | .cv c => .waitUncount c

def goto (s : Monitor P C) (proc : P) (place : At C) : Monitor P C := { s with pc := Function.update s.pc proc place }

def setSem (s : Monitor P C) (id : SemId C) (sem : Semaphore P) : Monitor P C := { s with sems := Function.update s.sems id sem }

def upThen (s : Monitor P C) (proc : P) (id : SemId C) (place : At C) : Except Fault (Monitor P C) := do
  let (_, sem, waits) ← (s.sems id).up s.waits
  return { s.setSem id sem with waits := waits }.goto proc place

def downFrom (s : Monitor P C) (proc : P) (id : SemId C) : Monitor P C :=
  match (s.sems id).down s.waits proc with
  | (true, sem, waits) => { s.setSem id sem with waits := waits }.goto proc (gotAt id)
  | (false, sem, waits) => { s.setSem id sem with waits := waits }.goto proc (sleepAt id)

def resumeFrom (s : Monitor P C) (proc : P) (id : SemId C) : Except Fault (Monitor P C) := do
  let sem ← (s.sems id).downResumed s.waits proc
  return (s.setSem id sem).goto proc (gotAt id)

-- One statement of a process.
def call (s : Monitor P C) (proc : P) (act : Act C) : Except Fault (Monitor P C) :=
  match s.pc proc with
  | .outside => if act = .enter then .ok (s.downFrom proc .mutex) else .ok s
  | .enterSleep => s.resumeFrom proc .mutex
  | .inside =>
      match act with
      | .enter => .ok s
      | .signal c => .ok (if 0 < s.count c then s.goto proc (.signalCount c) else s)
      | .wait c => .ok (s.goto proc (.waitCount c))
      | .leave => .ok (s.goto proc .leaveTest)
  | .signalCount c => .ok ({ s with nextCount := s.nextCount + 1 }.goto proc (.signalUp c))
  | .signalUp c => s.upThen proc (.cv c) .signalDown
  | .signalDown => .ok (s.downFrom proc .next)
  | .signalSleep => s.resumeFrom proc .next
  | .signalUncount => .ok ({ s with nextCount := s.nextCount - 1 }.goto proc .inside)
  | .waitCount c => .ok ({ s with count := Function.update s.count c (s.count c + 1) }.goto proc (.waitTest c))
  | .waitTest c => .ok (s.goto proc (if 0 < s.nextCount then .waitUpNext c else .waitUpMutex c))
  | .waitUpNext c => s.upThen proc .next (.waitDown c)
  | .waitUpMutex c => s.upThen proc .mutex (.waitDown c)
  | .waitDown c => .ok (s.downFrom proc (.cv c))
  | .waitSleep c => s.resumeFrom proc (.cv c)
  | .waitUncount c => .ok ({ s with count := Function.update s.count c (s.count c - 1) }.goto proc .inside)
  | .leaveTest => .ok (s.goto proc (if 0 < s.nextCount then .leaveUpNext else .leaveUpMutex))
  | .leaveUpNext => s.upThen proc .next .outside
  | .leaveUpMutex => s.upThen proc .mutex .outside

-- Any process that runs may take the next statement. none also stands for a
-- failed assertion.
def step (s : Monitor P C) (event : P × Act C) : Option (Monitor P C) :=
  if (s.waits.procs event.1).state = .runnable then
    match s.call event.1 event.2 with
    | .ok next => some next
    | .error _ => none
  else none

-- monitor_init, with all processes outside.
def boot (waits : Waits P) : Monitor P C :=
  ⟨fun id => ⟨if id = .mutex then 1 else 0, []⟩, waits, 0, fun _ => 0, fun _ => .outside⟩

-- Places at which a process has the monitor to itself.
def active : At C → Bool
  | .outside | .enterSleep | .signalDown | .signalSleep | .waitDown _ | .waitSleep _ => false
  | _ => true

-- A signaler from next_count++ to next_count--, and a waiter from count++ to
-- count--.
def signaling : At C → Bool
  | .signalUp _ | .signalDown | .signalSleep | .signalUncount => true
  | _ => false

def waitingOn (c : C) : At C → Bool
  | .waitTest d | .waitUpNext d | .waitUpMutex d | .waitDown d | .waitSleep d | .waitUncount d => d = c
  | _ => false

end Monitor

end Ucore.Sync
