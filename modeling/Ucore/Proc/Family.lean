import Ucore.Lib.Run
import Ucore.Proc.Proc

set_option autoImplicit false

namespace Ucore.Proc

open Ucore.Lib

def maxProcess : Int := 4096
def maxPid : Int := maxProcess * 2

-- How a pass of get_pid over the process list ends: at repeat again with another
-- last_pid, or with a free pid and a new next_safe.
inductive PidScan where
  | again (lastPid : Int)
  | found (lastPid nextSafe : Int)
deriving DecidableEq, Repr

def pidScan : List Int → Int → Int → PidScan
  | [], lastPid, nextSafe => .found lastPid nextSafe
  | pid :: rest, lastPid, nextSafe =>
      if pid = lastPid then
        if nextSafe ≤ lastPid + 1 then .again (if maxPid ≤ lastPid + 1 then 1 else lastPid + 1)
        else pidScan rest (lastPid + 1) nextSafe
      else if lastPid < pid ∧ pid < nextSafe then pidScan rest lastPid pid
      else pidScan rest lastPid nextSafe

def pidSearch (pids : List Int) : Nat → Int → Except Fault (Int × Int)
  | 0, _ => .error .outOfFuel
  | fuel + 1, lastPid =>
      match pidScan pids lastPid maxPid with
      | .again lastPid => pidSearch pids fuel lastPid
      | .found lastPid nextSafe => .ok (lastPid, nextSafe)

def pidFuel : Nat := 20000

-- get_pid over the pids on the process list, with its two static variables.
def getPid (pids : List Int) (lastPid nextSafe : Int) : Except Fault (Int × Int) :=
  if maxPid ≤ lastPid + 1 then pidSearch pids pidFuel 1
  else if nextSafe ≤ lastPid + 1 then pidSearch pids pidFuel (lastPid + 1)
  else .ok (lastPid + 1, nextSafe)

def deref {P : Type} : Option P → Except Fault P
  | some proc => .ok proc
  | none => .error .nullPointer

-- proc_list from its head on, and the hash lists as one list: a lookup compares
-- pids, and processes of one pid are in one chain, the newest first.
structure Family (P : Type) where
  procs : Procs P
  procList : List P
  hashed : List P
  nrProcess : Int
  lastPid : Int
  nextSafe : Int

variable {P : Type} [DecidableEq P]

-- What set_links and do_exit do to put proc in front of the children of parent.
def linkChild (procs : Procs P) (parent proc : P) : Procs P :=
  let procs := procs.set proc { procs proc with yptr := none, optr := (procs parent).cptr }
  let procs :=
    match (procs proc).optr with
    | none => procs
    | some older => procs.set older { procs older with yptr := some proc }
  procs.set parent { procs parent with cptr := some proc }

def unlinkChild (procs : Procs P) (proc : P) : Except Fault (Procs P) :=
  let procs :=
    match (procs proc).optr with
    | none => procs
    | some older => procs.set older { procs older with yptr := (procs proc).yptr }
  match (procs proc).yptr with
  | some younger => .ok (procs.set younger { procs younger with optr := (procs proc).optr })
  | none => do
      let parent ← deref (procs proc).parent
      return procs.set parent { procs parent with cptr := (procs proc).optr }

def wakeWaiting (procs : Procs P) (proc : P) : Except Fault (Procs P) :=
  if (procs proc).waitState = wtChild then wakeupState procs proc else .ok procs

-- The loop of do_exit, which hands the children of current to initproc.
def adoptChildren (init current : P) : Nat → Procs P → Except Fault (Procs P)
  | 0, _ => .error .outOfFuel
  | fuel + 1, procs =>
      match (procs current).cptr with
      | none => .ok procs
      | some proc => do
          let procs := procs.set current { procs current with cptr := (procs proc).optr }
          let procs := linkChild procs init proc
          let procs := procs.set proc { procs proc with parent := some init }
          let procs ← if (procs proc).state = .zombie then wakeWaiting procs init else .ok procs
          adoptChildren init current fuel procs

-- The loop of do_wait over the children.
inductive WaitScan (P : Type) where
  | noKid
  | hasKid
  | found (proc : P)
deriving DecidableEq, Repr

def waitScan (procs : Procs P) : Nat → Option P → Bool → Except Fault (WaitScan P)
  | 0, _, _ => .error .outOfFuel
  | _ + 1, none, hasKid => .ok (if hasKid then .hasKid else .noKid)
  | fuel + 1, some proc, _ =>
      if (procs proc).state = .zombie then .ok (.found proc) else waitScan procs fuel (procs proc).optr true

namespace Family

def setLinks (f : Family P) (proc : P) : Except Fault (Family P) := do
  let parent ← deref (f.procs proc).parent
  return { f with procs := linkChild f.procs parent proc, procList := proc :: f.procList, nrProcess := f.nrProcess + 1 }

def removeLinks (f : Family P) (proc : P) : Except Fault (Family P) := do
  let procs ← unlinkChild f.procs proc
  return { f with procs := procs, procList := f.procList.erase proc, nrProcess := f.nrProcess - 1 }

def findProc (f : Family P) (pid : Int) : Option P :=
  if 0 < pid ∧ pid < maxPid then f.hashed.find? fun proc => (f.procs proc).pid = pid else none

-- do_fork: proc is what alloc_proc returns, and ready says whether setup_kstack,
-- copy_mm and copy_files succeed. They neither sleep nor touch the fields here.
def doFork (f : Family P) (current : P) (proc : Option P) (ready : Bool) : Except Fault (Int × Family P) :=
  if maxProcess ≤ f.nrProcess then .ok (eNoFreeProc, f)
  else
    match proc with
    | none => .ok (eNoMem, f)
    | some proc =>
        let procs := f.procs.set proc { allocProc with parent := some current }
        let procs := procs.set current { procs current with waitState := 0 }
        if ready then do
          let (lastPid, nextSafe) ← getPid (f.procList.map fun other => (procs other).pid) f.lastPid f.nextSafe
          let procs := procs.set proc { procs proc with pid := lastPid }
          let f ← setLinks ⟨procs, f.procList, proc :: f.hashed, f.nrProcess, lastPid, nextSafe⟩ proc
          let procs ← wakeupState f.procs proc
          return ((procs proc).pid, { f with procs := procs })
        else .ok (eNoMem, { f with procs := procs })

-- do_exit from where the process becomes a zombie; what it gives back before may
-- sleep, and is not about the fields here.
def doExit (f : Family P) (idle init current : P) (errorCode : Int) : Except Fault (Family P) :=
  if current = idle then .error .panic
  else if current = init then .error .panic
  else do
    let procs := f.procs.set current { f.procs current with state := .zombie, exitCode := errorCode }
    let parent ← deref (procs current).parent
    let procs ← wakeWaiting procs parent
    let procs ← adoptChildren init current (f.procList.length + 1) procs
    return { f with procs := procs }

def waitFor (f : Family P) (current : P) (pid : Int) : Except Fault (WaitScan P) :=
  if pid ≠ 0 then
    match f.findProc pid with
    | none => .ok .noKid
    | some proc =>
        if (f.procs proc).parent = some current then
          if (f.procs proc).state = .zombie then .ok (.found proc) else .ok .hasKid
        else .ok .noKid
  else waitScan f.procs (f.procList.length + 1) (f.procs current).cptr false

-- do_wait after found, with the code that it stores.
def reap (f : Family P) (idle init proc : P) : Except Fault (Int × Family P) :=
  if proc = idle ∨ proc = init then .error .panic
  else do
    let code := (f.procs proc).exitCode
    let f ← removeLinks { f with hashed := f.hashed.erase proc } proc
    return (code, f)

-- idleproc, which is not on the list, creates initproc.
def procInit (procs : Procs P) (idle init : P) : Except Fault (Family P) := do
  let procs := procs.set idle { allocProc with pid := 0, state := .runnable, needResched := true }
  let (_, f) ← doFork ⟨procs, [], [], 1, maxPid, maxPid⟩ idle (some init) true
  return f

end Family

-- Where a process is in do_wait: not in it, or after schedule(), or on its way to
-- do_exit from there.
inductive WaitPhase where
  | outside
  | waiting (pid : Int) (codeStore : Option Nat)
  | dying (errorCode : Int)
deriving DecidableEq, Repr

def WaitPhase.isWaiting : WaitPhase → Bool
  | .waiting _ _ => true
  | _ => false

-- One do_wait that found a zombie: who called it, the zombie with its proc_struct
-- as it was, and what was stored where.
structure Reap (P : Type) where
  reaper : P
  proc : P
  serial : Nat
  entry : ProcStruct P
  codeStore : Option Nat
  stored : Option (Nat × Int)

-- The processes with their calls. serial numbers the forks, so that a proc_struct
-- that is used again is another process; exits has the exit code of each.
structure FamilySystem (P : Type) where
  family : Family P
  phase : P → WaitPhase
  serial : P → Nat
  births : Nat
  exits : List (Nat × Int)
  reaps : List (Reap P)

-- What the running process does, resume being its return from schedule() in
-- do_wait. block and wake are all other sleeps and wakeups.
inductive FamilyCall (P : Type) where
  | fork (current : P) (proc : Option P) (ready : Bool)
  | exit (current : P) (errorCode : Int)
  | wait (current : P) (pid : Int) (codeStore : Option Nat) (valid : Bool)
  | resume (current : P)
  | kill (current : P) (pid : Int)
  | block (current : P) (waitState : BitVec 32)
  | wake (proc : P)

namespace FamilySystem

-- do_wait from repeat on.
def waitStep (s : FamilySystem P) (idle init current : P) (pid : Int) (codeStore : Option Nat) : Except Fault (FamilySystem P) := do
  match ← s.family.waitFor current pid with
  | .noKid => return { s with phase := Function.update s.phase current .outside }
  | .hasKid =>
      let procs := s.family.procs.set current { s.family.procs current with state := .sleeping, waitState := wtChild }
      return { s with family := { s.family with procs := procs }, phase := Function.update s.phase current (.waiting pid codeStore) }
  | .found proc =>
      let (code, family) ← s.family.reap idle init proc
      let reaped := ⟨current, proc, s.serial proc, s.family.procs proc, codeStore, codeStore.map fun place => (place, code)⟩
      return { s with family := family, phase := Function.update s.phase current .outside, reaps := reaped :: s.reaps }

def call (idle init : P) (s : FamilySystem P) : FamilyCall P → Except Fault (FamilySystem P)
  | .fork current proc ready => do
      let (ret, family) ← s.family.doFork current proc ready
      if 0 < ret then
        return { s with
          family := family
          phase := fun other => if some other = proc then .outside else s.phase other
          serial := fun other => if some other = proc then s.births else s.serial other
          births := s.births + 1 }
      else return { s with family := family }
  | .exit current errorCode => do
      let family ← s.family.doExit idle init current errorCode
      return { s with
        family := family
        phase := Function.update s.phase current .outside
        exits := (s.serial current, errorCode) :: s.exits }
  | .wait current pid codeStore valid =>
      if codeStore.isSome ∧ ¬ valid then .ok s else s.waitStep idle init current pid codeStore
  | .resume current =>
      match s.phase current with
      | .waiting pid codeStore =>
          if (s.family.procs current).exiting then .ok { s with phase := Function.update s.phase current (.dying eKilled) }
          else s.waitStep idle init current pid codeStore
      | _ => .ok s
  | .kill _ pid =>
      match s.family.findProc pid with
      | none => .ok s
      | some proc => do
          let (_, procs) ← killProc s.family.procs proc
          return { s with family := { s.family with procs := procs } }
  | .block current waitState =>
      let procs := s.family.procs.set current { s.family.procs current with state := .sleeping, waitState := waitState }
      .ok { s with family := { s.family with procs := procs } }
  | .wake proc => do
      let procs ← wakeupState s.family.procs proc
      return { s with family := { s.family with procs := procs } }

def step (idle init : P) (s : FamilySystem P) (event : FamilyCall P) : Option (FamilySystem P) :=
  match s.call idle init event with
  | .ok next => some next
  | .error _ => none

def Runs (s : FamilySystem P) (proc : P) : Prop := proc ∈ s.family.procList ∧ (s.family.procs proc).state = .runnable

instance (s : FamilySystem P) (proc : P) : Decidable (s.Runs proc) := by
  unfold Runs
  infer_instance

-- A runnable process takes its next step whenever the scheduler picks it.
-- kmalloc gives no proc_struct that is in use, and do_wait's sleepers are woken
-- by do_exit and do_kill alone.
def Enabled (idle : P) (s : FamilySystem P) : FamilyCall P → Prop
  | .fork current proc _ => s.Runs current ∧ s.phase current = .outside ∧ ∀ fresh ∈ proc, fresh ≠ idle ∧ fresh ∉ s.family.procList
  | .exit current errorCode => s.Runs current ∧ (s.phase current = .outside ∨ s.phase current = .dying errorCode)
  | .wait current _ _ _ => s.Runs current ∧ s.phase current = .outside
  | .resume current => s.Runs current ∧ s.phase current ≠ .outside
  | .kill current _ => s.Runs current ∧ s.phase current = .outside
  | .block current waitState => s.Runs current ∧ (s.phase current).isWaiting = false ∧ waitState ≠ 0 ∧ waitState ≠ wtChild
  | .wake proc => proc ∈ s.family.procList ∧ (s.family.procs proc).state = .sleeping ∧ (s.family.procs proc).waitState ≠ wtChild

instance (idle : P) (s : FamilySystem P) (event : FamilyCall P) : Decidable (s.Enabled idle event) := by
  cases event <;> unfold Enabled <;> infer_instance

def boot (family : Family P) : FamilySystem P := ⟨family, fun _ => .outside, fun _ => 0, 1, [], []⟩

end FamilySystem

end Ucore.Proc
