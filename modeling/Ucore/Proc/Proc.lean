import Mathlib.Logic.Function.Basic
import Ucore.Lib.Checked
import Ucore.Sched.Stride

set_option autoImplicit false

namespace Ucore.Proc

open Ucore.Lib
open Ucore.Sched (ProcState)

inductive Fault where
  | assertFailed
  | panic
  | nullPointer
  | outOfFuel
deriving DecidableEq, Repr

def wtInterrupted : BitVec 32 := 0x80000000
def wtChild : BitVec 32 := 0x00000001 ||| wtInterrupted
def wtKsem : BitVec 32 := 0x00000100
def wtTimer : BitVec 32 := 0x00000002 ||| wtInterrupted

def interruptible (waitState : BitVec 32) : Bool := waitState &&& wtInterrupted ≠ 0

def eInval : Int := -3
def eNoMem : Int := -4
def eNoFreeProc : Int := -5
def eKilled : Int := -9

-- The fields of proc_struct that the code about processes reads or writes, over
-- any type of addresses. exiting is the flag PF_EXITING, and onRq the test
-- proc->rq == rq: there is one run queue.
structure ProcStruct (P : Type) where
  state : ProcState
  pid : Int
  needResched : Bool
  parent : Option P
  exiting : Bool
  exitCode : Int
  waitState : BitVec 32
  cptr : Option P
  yptr : Option P
  optr : Option P
  onRq : Bool
  timeSlice : Int

variable {P : Type}

def allocProc : ProcStruct P := ⟨.uninit, -1, false, none, false, 0, 0, none, none, none, false, 0⟩

variable [DecidableEq P]

abbrev Procs (P : Type) := P → ProcStruct P

def Procs.set (procs : Procs P) (proc : P) (entry : ProcStruct P) : Procs P := Function.update procs proc entry

@[simp] theorem Procs.set_here (procs : Procs P) (proc : P) (entry : ProcStruct P) : procs.set proc entry proc = entry := by
  simp [Procs.set]

@[simp] theorem Procs.set_other (procs : Procs P) (proc other : P) (entry : ProcStruct P) (apart : other ≠ proc) :
    procs.set proc entry other = procs other := by
  simp [Procs.set, apart]

@[simp] theorem Procs.set_set (procs : Procs P) (proc : P) (first second : ProcStruct P) :
    (procs.set proc first).set proc second = procs.set proc second := by
  simp [Procs.set]

-- What wakeup_proc does to the process itself; the queue of runnable processes
-- is RoundRobin's.
def wakeupState (procs : Procs P) (proc : P) : Except Fault (Procs P) := do
  check ((procs proc).state ≠ .zombie) .assertFailed
  if (procs proc).state ≠ .runnable then return procs.set proc { procs proc with state := .runnable, waitState := 0 }
  else return procs

theorem wakeup_state_ok (procs : Procs P) (proc : P) (alive : (procs proc).state ≠ .zombie) :
    ∃ procs', wakeupState procs proc = .ok procs' ∧ (procs' proc).state = .runnable ∧
      ((procs' proc).waitState = 0 ∨ (procs' proc).waitState = (procs proc).waitState) ∧
      ∀ other, other ≠ proc → procs' other = procs other := by
  by_cases runs : (procs proc).state = .runnable
  · refine ⟨procs, ?_, runs, .inr rfl, fun _ _ => rfl⟩
    simp [wakeupState, runs]
  · refine ⟨procs.set proc { procs proc with state := .runnable, waitState := 0 }, ?_, by simp, by simp, fun other apart => by simp [apart]⟩
    simp [wakeupState, alive, runs]

-- do_kill once find_proc has found the process.
def killProc (procs : Procs P) (proc : P) : Except Fault (Int × Procs P) :=
  if (procs proc).exiting then .ok (eKilled, procs)
  else
    let procs := procs.set proc { procs proc with exiting := true }
    if interruptible (procs proc).waitState then (wakeupState procs proc).map fun procs => (0, procs) else .ok (0, procs)

end Ucore.Proc
