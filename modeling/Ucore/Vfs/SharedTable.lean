import Ucore.Lib.Run
import Ucore.Vfs.Files

set_option autoImplicit false

namespace Ucore.Vfs

open Ucore.Lib

def lseekSet : Int := 0
def lseekCur : Int := 1
def lseekEnd : Int := 2

inductive FileOp where
  | read
  | write
  | seek (pos whence : Int)
  | fstat
  | fsync
  | getdirentry

-- Where a call is that has its entry: in vop_read or vop_write, in vop_fstat or
-- vop_tryseek of file_seek, or in the one operation of the other calls.
inductive InOp where
  | moving
  | seekEnd (pos : Int)
  | tryseek (pos : Int)
  | plain

-- What a process may be asleep in, all of it below the file layer: vfs_open,
-- vop_fstat or vfs_close in file_open, an operation on an entry that it has
-- acquired, or vfs_close in fd_array_free.
inductive Work (N : Type) where
  | opening (flags : BitVec 32)
  | appending (flags : BitVec 32) (node : N)
  | undoing (ret : Int)
  | inOp (op : InOp) (node : N)
  | freeing (ret : Int)

inductive TablePhase (N : Type) where
  | idle
  | busy (index : Nat) (work : Work N)

inductive WorkSort where
  | opening
  | flying
  | freeing
deriving DecidableEq

def Work.sort {N : Type} : Work N → WorkSort
  | .opening _ => .opening
  | .appending _ _ => .opening
  | .undoing _ => .opening
  | .inOp _ _ => .flying
  | .freeing _ => .freeing

-- One files_struct and the processes that share it. opens and closes count
-- fd_array_open and vfs_close in fd_array_free by entry and inode; handed has the
-- calls in flight on an entry each time fd_array_alloc gives it out.
structure SharedTable (P N : Type) where
  files : FilesStruct N
  phase : P → TablePhase N
  opens : Nat → N → Int
  closes : Nat → N → Int
  handed : List Int

-- A call of the file layer begins, or what it sleeps in returns.
inductive TableCall (P N : Type) where
  | openFile (proc : P) (flags : BitVec 32)
  | vfsOpened (proc : P) (result : Except Int N)
  | fstated (proc : P) (result : Except Int Int)
  | close (proc : P) (fd : Int)
  | dup (proc : P) (fd1 fd2 : Int)
  | start (proc : P) (fd : Int) (op : FileOp)
  | finish (proc : P) (ret moved : Int)
  | vfsClosed (proc : P)

def TablePhase.tally {N : Type} (phase : TablePhase N) (sort : WorkSort) (index : Nat) : Int :=
  match phase with
  | .idle => 0
  | .busy there work => if there = index ∧ work.sort = sort then 1 else 0

def bump {N : Type} [DecidableEq N] (counts : Nat → N → Int) (index : Nat) (node : N) : Nat → N → Int :=
  fun i n => if i = index ∧ n = node then counts i n + 1 else counts i n

namespace SharedTable

variable {P N : Type} [DecidableEq P] [DecidableEq N]

def entry (s : SharedTable P N) (index : Nat) : File N := s.files.fdArray.getD index (fileNone N)

def tally (procs : List P) (s : SharedTable P N) (sort : WorkSort) (index : Nat) : Int := (procs.map fun proc => (s.phase proc).tally sort index).sum

def put (s : SharedTable P N) (proc : P) (index : Nat) (file : File N) (phase : TablePhase N) : SharedTable P N :=
  { s with files := setFile s.files index file, phase := Function.update s.phase proc phase }

-- fd_array_free up to vfs_close; some is the result of a call that returns.
def beginFree (s : SharedTable P N) (proc : P) (index : Nat) (file : File N) (ret : Int) : Except Fault (Option Int × SharedTable P N) := do
  check (file.status = .init ∨ file.status = .closed) .assertFailed
  check (file.openCount = 0) .assertFailed
  if file.status = .closed then
    match file.node with
    | none => .error .assertFailed
    | some node => .ok (none, { s.put proc index file (.busy index (.freeing ret)) with closes := bump s.closes index node })
  else .ok (some ret, s.put proc index { file with status := .none } .idle)

def release (s : SharedTable P N) (proc : P) (index : Nat) (file : File N) (ret : Int) : Except Fault (Option Int × SharedTable P N) := do
  check (file.status = .opened ∨ file.status = .closed) .assertFailed
  check (0 < file.openCount) .assertFailed
  let file := { file with openCount := file.openCount - 1 }
  if file.openCount = 0 then s.beginFree proc index file ret else .ok (some ret, s.put proc index file .idle)

def fileOpen (procs : List P) (s : SharedTable P N) (proc : P) (flags : BitVec 32) : Except Fault (Option Int × SharedTable P N) :=
  if flags &&& oAccMode = oAccMode then .ok (some eInval, s)
  else do
    match ← fdArrayAlloc s.files noFd with
    | .error ret => return (some ret, s)
    | .ok (index, file) =>
        return (none, { s.put proc index file (.busy index (.opening flags)) with handed := s.tally procs .flying index :: s.handed })

-- The end of file_open.
def opened (s : SharedTable P N) (proc : P) (index : Nat) (flags : BitVec 32) (node : N) (pos : Int) :
    Except Fault (Option Int × SharedTable P N) := do
  let file ← fdArrayOpen { s.entry index with
    pos := pos
    node := some node
    readable := flags &&& oAccMode ≠ oWrOnly
    writable := flags &&& oAccMode ≠ oRdOnly }
  return (some (index : Int), { s.put proc index file .idle with opens := bump s.opens index node })

def fileClose (s : SharedTable P N) (proc : P) (fd : Int) : Except Fault (Option Int × SharedTable P N) := do
  match ← fd2file s.files fd with
  | .error ret => return (some ret, s)
  | .ok (index, file) => do
      check (file.status = .opened) .assertFailed
      check (0 < file.openCount) .assertFailed
      let file := { file with status := .closed, openCount := file.openCount - 1 }
      if file.openCount = 0 then s.beginFree proc index file 0 else .ok (some 0, s.put proc index file .idle)

-- fd_array_dup takes its references to the inode without a sleep.
def fileDup (procs : List P) (s : SharedTable P N) (proc : P) (fd1 fd2 : Int) : Except Fault (Option Int × SharedTable P N) := do
  match ← fd2file s.files fd1 with
  | .error ret => return (some ret, s)
  | .ok (_, origin) => do
      match ← fdArrayAlloc s.files fd2 with
      | .error ret => return (some ret, s)
      | .ok (index, into) => do
          check (into.status = .init ∧ origin.status = .opened) .assertFailed
          match origin.node with
          | none => .error .assertFailed
          | some node => do
              let file ← fdArrayOpen { into with pos := origin.pos, readable := origin.readable, writable := origin.writable, node := some node }
              return (some (index : Int),
                { s.put proc index file .idle with
                  opens := bump s.opens index node
                  handed := s.tally procs .flying index :: s.handed })

def acquire (s : SharedTable P N) (proc : P) (index : Nat) (file : File N) (op : InOp) : Except Fault (Option Int × SharedTable P N) := do
  check (file.status = .opened) .assertFailed
  match file.node with
  | none => .error .assertFailed
  | some node => .ok (none, s.put proc index { file with openCount := file.openCount + 1 } (.busy index (.inOp op node)))

-- Whether the call refuses the entry before fd_array_acquire.
def FileOp.refuses (op : FileOp) (file : File N) : Bool :=
  match op with
  | .read => ¬ file.readable
  | .write => ¬ file.writable
  | _ => false

def FileOp.begins (op : FileOp) (file : File N) : InOp :=
  match op with
  | .read | .write => .moving
  | .seek pos whence => if whence = lseekEnd then .seekEnd pos else .tryseek (if whence = lseekCur then pos + file.pos else pos)
  | .fstat | .fsync | .getdirentry => .plain

-- A whence that is none of the three makes file_seek release the entry at once.
def FileOp.stops (op : FileOp) : Bool :=
  match op with
  | .seek _ whence => whence ≠ lseekSet ∧ whence ≠ lseekCur ∧ whence ≠ lseekEnd
  | _ => false

def fileStart (s : SharedTable P N) (proc : P) (fd : Int) (op : FileOp) : Except Fault (Option Int × SharedTable P N) := do
  match ← fd2file s.files fd with
  | .error ret => return (some ret, s)
  | .ok (index, file) =>
      if FileOp.refuses op file then .ok (some eInval, s)
      else if FileOp.stops op then do
        let (_, s) ← s.acquire proc index file .plain
        s.release proc index (s.entry index) eInval
      else s.acquire proc index file (FileOp.begins op file)

-- The operation has returned ret; moved is what it transferred, or st_size.
def fileFinish (s : SharedTable P N) (proc : P) (index : Nat) (op : InOp) (node : N) (ret moved : Int) :
    Except Fault (Option Int × SharedTable P N) :=
  let file := s.entry index
  match op with
  | .moving => s.release proc index (if file.status = .opened then { file with pos := file.pos + moved } else file) ret
  | .seekEnd pos =>
      if ret = 0 then .ok (none, s.put proc index file (.busy index (.inOp (.tryseek (pos + moved)) node)))
      else s.release proc index file ret
  | .tryseek pos => s.release proc index (if ret = 0 then { file with pos := pos } else file) ret
  | .plain => s.release proc index file ret

def call (procs : List P) (s : SharedTable P N) : TableCall P N → Except Fault (Option Int × SharedTable P N)
  | .openFile proc flags => s.fileOpen procs proc flags
  | .vfsOpened proc result =>
      match s.phase proc, result with
      | .busy index (.opening _), .error ret => s.beginFree proc index (s.entry index) ret
      | .busy index (.opening flags), .ok node =>
          if has flags oAppend then .ok (none, s.put proc index { s.entry index with pos := 0 } (.busy index (.appending flags node)))
          else s.opened proc index flags node 0
      | _, _ => .ok (none, s)
  | .fstated proc result =>
      match s.phase proc, result with
      | .busy index (.appending _ _), .error ret => .ok (none, s.put proc index (s.entry index) (.busy index (.undoing ret)))
      | .busy index (.appending flags node), .ok size => s.opened proc index flags node size
      | _, _ => .ok (none, s)
  | .close proc fd => s.fileClose proc fd
  | .dup proc fd1 fd2 => s.fileDup procs proc fd1 fd2
  | .start proc fd op => s.fileStart proc fd op
  | .finish proc ret moved =>
      match s.phase proc with
      | .busy index (.inOp op node) => s.fileFinish proc index op node ret moved
      | _ => .ok (none, s)
  | .vfsClosed proc =>
      match s.phase proc with
      | .busy index (.undoing ret) => s.beginFree proc index (s.entry index) ret
      | .busy index (.freeing ret) => .ok (some ret, s.put proc index { s.entry index with status := .none } .idle)
      | _ => .ok (none, s)

def step (procs : List P) (s : SharedTable P N) (event : TableCall P N) : Option (SharedTable P N) :=
  match s.call procs event with
  | .ok (_, next) => some next
  | .error _ => none

def idle (s : SharedTable P N) (proc : P) : Bool :=
  match s.phase proc with
  | .idle => true
  | .busy _ _ => false

-- A process begins a call when it is in none.
def Enabled (procs : List P) (s : SharedTable P N) : TableCall P N → Prop
  | .openFile proc _ => proc ∈ procs ∧ s.idle proc
  | .close proc _ => proc ∈ procs ∧ s.idle proc
  | .dup proc _ _ => proc ∈ procs ∧ s.idle proc
  | .start proc _ _ => proc ∈ procs ∧ s.idle proc
  | .vfsOpened proc _ => proc ∈ procs
  | .fstated proc _ => proc ∈ procs
  | .finish proc _ _ => proc ∈ procs
  | .vfsClosed proc => proc ∈ procs

instance (procs : List P) (s : SharedTable P N) (event : TableCall P N) : Decidable (s.Enabled procs event) := by
  cases event <;> unfold Enabled <;> infer_instance

-- A table between calls: its entries are free, or open without calls in flight.
def ofFiles (files : FilesStruct N) : SharedTable P N :=
  { files := files
    phase := fun _ => .idle
    opens := fun index node => if (files.fdArray.getD index (fileNone N)).status = .opened ∧ (files.fdArray.getD index (fileNone N)).node = some node then 1 else 0
    closes := fun _ _ => 0
    handed := [] }

end SharedTable

end Ucore.Vfs
