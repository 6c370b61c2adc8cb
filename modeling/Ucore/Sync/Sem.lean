import Ucore.Lib.Run
import Ucore.Proc.Proc

set_option autoImplicit false

namespace Ucore.Sync

open Ucore.Lib Ucore.Proc

structure Semaphore (P : Type) where
  value : BitVec 32
  queue : List P

-- A wait_t is a local variable of __down, so a process names its own: it is in
-- the queue when its link is, and has its wakeup_flags here.
structure Waits (P : Type) where
  procs : Procs P
  wakeupFlags : P → BitVec 32

variable {P : Type} [DecidableEq P]

namespace Semaphore

-- __up, and the waiter that was woken up.
def up (sem : Semaphore P) (waits : Waits P) : Except Fault (Option P × Semaphore P × Waits P) :=
  match sem.queue with
  | [] => .ok (none, { sem with value := sem.value + 1 }, waits)
  | wait :: _ => do
      check ((waits.procs wait).waitState = wtKsem) .assertFailed
      let procs ← wakeupState waits.procs wait
      return (some wait, { sem with queue := sem.queue.erase wait }, ⟨procs, Function.update waits.wakeupFlags wait wtKsem⟩)

-- __down up to schedule(): either the value is taken, or the process sleeps in
-- the queue.
def down (sem : Semaphore P) (waits : Waits P) (proc : P) : Bool × Semaphore P × Waits P :=
  if 0 < sem.value.toInt then (true, { sem with value := sem.value - 1 }, waits)
  else
    (false, { sem with queue := sem.queue ++ [proc] },
      ⟨waits.procs.set proc { waits.procs proc with state := .sleeping, waitState := wtKsem },
        Function.update waits.wakeupFlags proc wtInterrupted⟩)

-- __down after schedule(), and the assertion in down.
def downResumed (sem : Semaphore P) (waits : Waits P) (proc : P) : Except Fault (Semaphore P) := do
  let sem := { sem with queue := sem.queue.erase proc }
  let flags := if waits.wakeupFlags proc ≠ wtKsem then waits.wakeupFlags proc else 0
  check (flags = 0) .assertFailed
  return sem

def tryDown (sem : Semaphore P) : Bool × Semaphore P :=
  if 0 < sem.value.toInt then (true, { sem with value := sem.value - 1 }) else (false, sem)

end Semaphore

-- Any number of processes with one semaphore, and what happened so far: how many
-- ups, downs without waiting and successful try_downs there were, which
-- processes queued up, which were handed an up, and which of these went on.
structure SemSystem (P : Type) where
  sem : Semaphore P
  waits : Waits P
  inDown : P → Bool
  ups : Nat
  downs : Nat
  tries : Nat
  queued : List P
  handed : List P
  resumed : List P

inductive SemCall (P : Type) where
  | up
  | down (proc : P)
  | resume (proc : P)
  | tryDown (proc : P)
  | kill (proc : P)
  | other (proc : P) (entry : ProcStruct P)

namespace SemSystem

def call (s : SemSystem P) : SemCall P → Except Fault (SemSystem P)
  | .up => do
      let (woken, sem, waits) ← s.sem.up s.waits
      return { s with sem := sem, waits := waits, ups := s.ups + 1, handed := s.handed ++ woken.toList }
  | .down proc =>
      match s.sem.down s.waits proc with
      | (true, sem, waits) => .ok { s with sem := sem, waits := waits, downs := s.downs + 1 }
      | (false, sem, waits) =>
          .ok { s with sem := sem, waits := waits, inDown := Function.update s.inDown proc true, queued := s.queued ++ [proc] }
  | .resume proc => do
      let sem ← s.sem.downResumed s.waits proc
      return { s with sem := sem, inDown := Function.update s.inDown proc false, resumed := s.resumed ++ [proc] }
  | .tryDown _ =>
      match s.sem.tryDown with
      | (granted, sem) => .ok { s with sem := sem, tries := if granted then s.tries + 1 else s.tries }
  | .kill proc => (killProc s.waits.procs proc).map fun result => { s with waits := { s.waits with procs := result.2 } }
  | .other proc entry => .ok { s with waits := { s.waits with procs := s.waits.procs.set proc entry } }

def step (s : SemSystem P) (semCall : SemCall P) : Option (SemSystem P) :=
  match s.call semCall with
  | .ok next => some next
  | .error _ => none

-- A process that runs may take any step, and one that sleeps inside down goes on
-- when it is runnable again. other stands for all that can happen to a process
-- outside of down. A process that exits was running, with wait_state 0.
def Enabled (s : SemSystem P) : SemCall P → Prop
  | .up => True
  | .down proc => s.inDown proc = false ∧ (s.waits.procs proc).state = .runnable
  | .resume proc => s.inDown proc = true ∧ (s.waits.procs proc).state = .runnable
  | .tryDown proc => s.inDown proc = false ∧ (s.waits.procs proc).state = .runnable
  | .kill proc => (s.waits.procs proc).state = .zombie → (s.waits.procs proc).waitState = 0
  | .other proc _ => s.inDown proc = false

instance (s : SemSystem P) (semCall : SemCall P) : Decidable (s.Enabled semCall) := by
  cases semCall <;> unfold Enabled <;> infer_instance

-- The int does not overflow.
def Fits (s : SemSystem P) : SemCall P → Prop
  | .up => s.sem.queue = [] → s.sem.value ≠ 0x7FFFFFFF
  | _ => True

instance (s : SemSystem P) (semCall : SemCall P) : Decidable (s.Fits semCall) := by
  cases semCall <;> unfold Fits <;> infer_instance

def boot (value : BitVec 32) (waits : Waits P) : SemSystem P := ⟨⟨value, []⟩, waits, fun _ => false, 0, 0, 0, [], [], []⟩

end SemSystem

end Ucore.Sync
