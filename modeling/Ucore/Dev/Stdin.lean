import Ucore.Lib.Ring
import Ucore.Sync.Sem

set_option autoImplicit false

namespace Ucore.Dev

open Ucore.Lib Ucore.Proc Ucore.Sync

def stdinBufsize : Nat := 4096

def wtKbd : BitVec 32 := 0x00000004 ||| wtInterrupted

-- A process inside dev_stdin_read: what it has in buf, and how many characters it
-- still asks for.
structure Reading where
  got : List UInt8
  left : Nat
deriving DecidableEq, Repr

-- The device with the processes around it, and what happened so far: the characters
-- that dev_stdin_write took and those that readers got. The positions are off_t,
-- which no run of a keyboard fills.
structure Stdin (P : Type) where
  buffer : Nat → UInt8
  rpos : Nat
  wpos : Nat
  queue : List P
  waits : Waits P
  reading : P → Option Reading
  accepted : List UInt8
  delivered : List UInt8

inductive StdinCall (P : Type) where
  | write (c : UInt8)
  | read (proc : P) (len : Nat)
  | resume (proc : P)
  | kill (proc : P)
  | other (proc : P) (entry : ProcStruct P)

namespace Stdin

variable {P : Type} [DecidableEq P]

-- wakeup_queue with WT_KBD: every waiter leaves the queue.
def wakeupQueue (waits : Waits P) : List P → Except Fault (Waits P)
  | [] => .ok waits
  | wait :: rest => do
      let procs ← wakeupState waits.procs wait
      wakeupQueue ⟨procs, Function.update waits.wakeupFlags wait wtKbd⟩ rest

def devStdinWrite (s : Stdin P) (c : UInt8) : Except Fault (Stdin P) :=
  if c ≠ 0 then do
    let s := { s with buffer := Function.update s.buffer (s.wpos % stdinBufsize) c }
    let s := if s.wpos - s.rpos < stdinBufsize then { s with wpos := s.wpos + 1, accepted := s.accepted ++ [c] } else s
    let waits ← wakeupQueue s.waits s.queue
    return { s with waits := waits, queue := [] }
  else .ok s

-- The loop of dev_stdin_read up to its end or to schedule(). Interrupts are off, so
-- nothing comes between its rounds.
def readLoop (s : Stdin P) (proc : P) (got : List UInt8) : Nat → Stdin P
  | 0 => { s with reading := Function.update s.reading proc none }
  | left + 1 =>
      if s.rpos < s.wpos then
        let c := s.buffer (s.rpos % stdinBufsize)
        readLoop { s with rpos := s.rpos + 1, delivered := s.delivered ++ [c] } proc (got ++ [c]) left
      else
        { s with
          queue := s.queue ++ [proc]
          waits := ⟨s.waits.procs.set proc { s.waits.procs proc with state := .sleeping, waitState := wtKbd },
            Function.update s.waits.wakeupFlags proc wtInterrupted⟩
          reading := Function.update s.reading proc (some ⟨got, left + 1⟩) }

-- After schedule(): a process that the keyboard woke up tries again, another one
-- goes home with what it has.
def readResumed (s : Stdin P) (proc : P) (held : Reading) : Stdin P :=
  let s := { s with queue := s.queue.erase proc }
  if s.waits.wakeupFlags proc = wtKbd then s.readLoop proc held.got held.left
  else { s with reading := Function.update s.reading proc none }

-- A process reads or goes on when it runs. other stands for all that happens to a
-- process outside of dev_stdin_read; a process that exits was running.
def call (s : Stdin P) : StdinCall P → Except Fault (Stdin P)
  | .write c => s.devStdinWrite c
  | .read proc len =>
      if s.reading proc = none ∧ (s.waits.procs proc).state = .runnable then .ok (s.readLoop proc [] len) else .ok s
  | .resume proc =>
      match s.reading proc with
      | some held => if (s.waits.procs proc).state = .runnable then .ok (s.readResumed proc held) else .ok s
      | none => .ok s
  | .kill proc => (killProc s.waits.procs proc).map fun result => { s with waits := { s.waits with procs := result.2 } }
  | .other proc entry =>
      if s.reading proc = none then .ok { s with waits := { s.waits with procs := s.waits.procs.set proc entry } } else .ok s

def step (s : Stdin P) (stdinCall : StdinCall P) : Option (Stdin P) :=
  match s.call stdinCall with
  | .ok next => some next
  | .error _ => none

-- stdin_device_init.
def boot (buffer : Nat → UInt8) (waits : Waits P) : Stdin P := ⟨buffer, 0, 0, [], waits, fun _ => none, [], []⟩

-- The characters in the buffer that nobody has read.
def unread (s : Stdin P) : List UInt8 := slotsFrom stdinBufsize s.buffer s.rpos (s.wpos - s.rpos)

-- A bounded FIFO: what was taken has been delivered or waits in the buffer, in order
-- and each character once.
structure Fifo (s : Stdin P) : Prop where
  order : s.delivered ++ s.unread = s.accepted
  bounded : s.unread.length ≤ stdinBufsize

-- No character arrives when the buffer is full, or it is the one that it falls on.
def Spares (s : Stdin P) : StdinCall P → Prop
  | .write c => c = 0 ∨ s.unread.length < stdinBufsize ∨ s.unread.head? = some c
  | _ => True

instance (s : Stdin P) : DecidablePred s.Spares := fun stdinCall => by
  cases stdinCall <;> unfold Spares <;> infer_instance

end Stdin

end Ucore.Dev
