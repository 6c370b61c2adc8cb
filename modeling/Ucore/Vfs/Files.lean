import Ucore.Vfs.Inode

set_option autoImplicit false

namespace Ucore.Vfs

open Ucore.Lib

inductive FdStatus where
  | none
  | init
  | opened
  | closed
deriving DecidableEq, Repr

-- The field fd of a struct file is its index in the table.
structure File (N : Type) where
  status : FdStatus
  readable : Bool
  writable : Bool
  pos : Int
  node : Option N
  openCount : Int

structure FilesStruct (N : Type) where
  pwd : Option N
  fdArray : List (File N)
  filesCount : Int

def noFd : Int := -0x9527

-- (PGSIZE - sizeof(struct files_struct)) / sizeof(struct file)
def filesStructNentry : Nat := (4096 - 48) / 56

def fileNone (N : Type) : File N := ⟨.none, false, false, 0, none, 0⟩

-- files_create, with what kmalloc leaves in the other fields of the entries as 0.
def filesCreate (N : Type) : FilesStruct N := ⟨none, List.replicate filesStructNentry (fileNone N), 0⟩

section Entries

variable {N : Type} [DecidableEq N]

def fdArrayFree (v : Mounts N) (c : Counts N) (file : File N) : Except Fault (Counts N × File N) := do
  check (file.status = .init ∨ file.status = .closed) .assertFailed
  check (file.openCount = 0) .assertFailed
  if file.status = .closed then
    match file.node with
    | none => .error .assertFailed
    | some node => do
        let c ← vfsClose v c node
        return (c, { file with status := .none })
  else return (c, { file with status := .none })

def fdArrayOpen (file : File N) : Except Fault (File N) := do
  check (file.status = .init ∧ file.node ≠ none) .assertFailed
  return { file with status := .opened, openCount := file.openCount + 1 }

def fdArrayClose (v : Mounts N) (c : Counts N) (file : File N) : Except Fault (Counts N × File N) := do
  check (file.status = .opened) .assertFailed
  check (0 < file.openCount) .assertFailed
  let file := { file with status := .closed, openCount := file.openCount - 1 }
  if file.openCount = 0 then fdArrayFree v c file else return (c, file)

def fdArrayDup (c : Counts N) (into origin : File N) : Except Fault (Counts N × File N) := do
  check (into.status = .init ∧ origin.status = .opened) .assertFailed
  match origin.node with
  | none => .error .assertFailed
  | some node => do
      let into ← fdArrayOpen { into with pos := origin.pos, readable := origin.readable, writable := origin.writable, node := some node }
      return (openInc (refInc c node) node, into)

-- fd_array_alloc: an index, and the entry there marked as taken.
def fdArrayAlloc (files : FilesStruct N) (fd : Int) : Except Fault (Except Int (Nat × File N)) := do
  check (0 < files.filesCount) .assertFailed
  let found := if fd = noFd then files.fdArray.findIdx? fun file => file.status = .none else
    if 0 ≤ fd ∧ fd < filesStructNentry then some fd.toNat else none
  match found.bind fun index => files.fdArray[index]?.map fun file => (index, file) with
  | none => return .error (if fd = noFd then eMaxOpen else eInval)
  | some (index, file) =>
      if file.status = .none then do
        check (file.openCount = 0) .assertFailed
        return .ok (index, { file with status := .init, node := none })
      else return .error eBusy

def fd2file (files : FilesStruct N) (fd : Int) : Except Fault (Except Int (Nat × File N)) :=
  if 0 ≤ fd ∧ fd < filesStructNentry then do
    check (0 < files.filesCount) .assertFailed
    match files.fdArray[fd.toNat]? with
    | some file => return if file.status = .opened then .ok (fd.toNat, file) else .error eInval
    | none => return .error eInval
  else return .error eInval

def setFile (files : FilesStruct N) (index : Nat) (file : File N) : FilesStruct N := { files with fdArray := files.fdArray.set index file }

-- The loops of files_closeall and files_destroy over the entries.
def closeOpened (v : Mounts N) : Counts N → List (File N) → Except Fault (Counts N × List (File N))
  | c, [] => .ok (c, [])
  | c, file :: rest => do
      let (c, file) ← if file.status = .opened then fdArrayClose v c file else .ok (c, file)
      let (c, rest) ← closeOpened v c rest
      return (c, file :: rest)

-- The first two entries, stdin and stdout, stay.
def filesCloseall (v : Mounts N) (c : Counts N) (files : FilesStruct N) : Except Fault (Counts N × FilesStruct N) := do
  check (0 < files.filesCount) .assertFailed
  let (c, rest) ← closeOpened v c (files.fdArray.drop 2)
  return (c, { files with fdArray := files.fdArray.take 2 ++ rest })

def filesDestroy (v : Mounts N) (c : Counts N) (files : FilesStruct N) : Except Fault (Counts N) := do
  check (files.filesCount = 0) .assertFailed
  let c ← match files.pwd with
    | some pwd => refDec v c pwd
    | none => .ok c
  let (c, closed) ← closeOpened v c files.fdArray
  check (closed.all fun file => file.status = .none) .assertFailed
  return c

def dupOpened : Counts N → List (File N) → List (File N) → Except Fault (Counts N × List (File N))
  | c, into :: intoRest, origin :: rest => do
      let (c, into) ← if origin.status = .opened then fdArrayDup c { into with status := .init } origin else .ok (c, into)
      let (c, intoRest) ← dupOpened c intoRest rest
      return (c, into :: intoRest)
  | c, into, _ => .ok (c, into)

def dupFiles (c : Counts N) (into origin : FilesStruct N) : Except Fault (Counts N × FilesStruct N) := do
  check (into.filesCount = 0 ∧ 0 < origin.filesCount) .assertFailed
  let c := match origin.pwd with
    | some pwd => refInc c pwd
    | none => c
  let (c, fdArray) ← dupOpened c into.fdArray origin.fdArray
  return (c, { into with pwd := origin.pwd, fdArray := fdArray })

end Entries

-- filesp of each process, and whether it has an mm. procs are the processes from
-- do_fork to do_exit.
structure FsState (P N : Type) where
  counts : Counts N
  bootfs : Option N
  filesp : P → FilesStruct N
  mm : P → Bool
  procs : List P

-- load_icode succeeds, or fails before or after it has given the process its mm.
inductive LoadIcode where
  | ok
  | failsBefore
  | failsAfter
deriving DecidableEq, Repr

-- checked is the outcome of what do_execve does before files_closeall. created
-- and ready are files_create and the rest of do_fork.
inductive FsCall (P N : Type) where
  | openFile (proc : P) (path : List Char) (flags : BitVec 32) (ans : Answers N)
  | close (proc : P) (fd : Int)
  | dup (proc : P) (fd1 fd2 : Int)
  | chdir (proc : P) (path : List Char) (ans : Answers N)
  | fork (proc child : P) (created ready : Bool)
  | exec (proc : P) (checked : Int) (path : List Char) (ans : Answers N) (load : LoadIcode)
  | exit (proc : P)

namespace FsState

variable {P N : Type} [DecidableEq P] [DecidableEq N]

def starts (s : FsState P N) (proc : P) : Starts N := ⟨(s.filesp proc).pwd, s.bootfs⟩

def setFiles (s : FsState P N) (proc : P) (counts : Counts N) (files : FilesStruct N) : FsState P N :=
  { s with counts := counts, filesp := Function.update s.filesp proc files }

-- file_open once the inode is open; size is what vop_fstat answers to O_APPEND.
def openSized (v : Mounts N) (s : FsState P N) (proc : P) (c : Counts N) (node : N) (flags : BitVec 32) (size : Except Int Int) (index : Nat)
    (file : File N) : Except Fault (Int × FsState P N) :=
  match size with
  | .error ret => do
      let c ← vfsClose v c node
      let (c, file) ← fdArrayFree v c file
      return (ret, s.setFiles proc c (setFile (s.filesp proc) index file))
  | .ok pos => do
      let file ← fdArrayOpen { file with
        pos := pos
        node := some node
        readable := flags &&& oAccMode ≠ oWrOnly
        writable := flags &&& oAccMode ≠ oRdOnly }
      return (index, s.setFiles proc c (setFile (s.filesp proc) index file))

-- file_open from vfs_open on.
def openAt (v : Mounts N) (s : FsState P N) (proc : P) (path : List Char) (flags : BitVec 32) (ans : Answers N) (index : Nat) (file : File N) :
    Except Fault (Int × FsState P N) := do
  let (c, found) ← vfsOpen v (s.starts proc) s.counts path flags ans
  match found with
  | .error ret => do
      let (c, file) ← fdArrayFree v c file
      return (ret, s.setFiles proc c (setFile (s.filesp proc) index file))
  | .ok node =>
      if has flags oAppend then do
        inodeCheck c node
        s.openSized v proc c node flags ans.fstat index file
      else s.openSized v proc c node flags (.ok 0) index file

def fileOpen (v : Mounts N) (s : FsState P N) (proc : P) (path : List Char) (flags : BitVec 32) (ans : Answers N) :
    Except Fault (Int × FsState P N) :=
  if flags &&& oAccMode = oAccMode then .ok (eInval, s)
  else do
    match ← fdArrayAlloc (s.filesp proc) noFd with
    | .error ret => return (ret, s)
    | .ok (index, file) => s.openAt v proc path flags ans index file

def sysfileOpen (v : Mounts N) (s : FsState P N) (proc : P) (path : List Char) (flags : BitVec 32) (ans : Answers N) :
    Except Fault (Int × FsState P N) :=
  if ans.copyPath ≠ 0 then .ok (ans.copyPath, s) else s.fileOpen v proc path flags ans

def fileClose (v : Mounts N) (s : FsState P N) (proc : P) (fd : Int) : Except Fault (Int × FsState P N) := do
  match ← fd2file (s.filesp proc) fd with
  | .error ret => return (ret, s)
  | .ok (index, file) => do
      let (c, file) ← fdArrayClose v s.counts file
      return (0, s.setFiles proc c (setFile (s.filesp proc) index file))

def fileDup (s : FsState P N) (proc : P) (fd1 fd2 : Int) : Except Fault (Int × FsState P N) := do
  match ← fd2file (s.filesp proc) fd1 with
  | .error ret => return (ret, s)
  | .ok (_, origin) => do
      match ← fdArrayAlloc (s.filesp proc) fd2 with
      | .error ret => return (ret, s)
      | .ok (index, file) => do
          let (c, file) ← fdArrayDup s.counts file origin
          return (index, s.setFiles proc c (setFile (s.filesp proc) index file))

def sysfileChdir (v : Mounts N) (s : FsState P N) (proc : P) (path : List Char) (ans : Answers N) : Except Fault (Int × FsState P N) :=
  if ans.copyPath ≠ 0 then .ok (ans.copyPath, s)
  else do
    let (c, found) ← vfsChdir v (s.starts proc) s.counts path ans
    match found with
    | .error ret => return (ret, { s with counts := c })
    | .ok pwd => return (0, s.setFiles proc c { s.filesp proc with pwd := pwd })

-- do_fork as far as files go; sys_fork and kernel_thread never share them. The 0
-- is the pid of the child.
def doFork (s : FsState P N) (proc child : P) (created ready : Bool) : Except Fault (Int × FsState P N) :=
  if ¬ ready ∨ ¬ created then .ok (eNoMem, s)
  else do
    let (c, files) ← dupFiles s.counts (filesCreate N) (s.filesp proc)
    return (0, { s.setFiles child c { files with filesCount := files.filesCount + 1 } with
      mm := Function.update s.mm child (s.mm proc)
      procs := child :: s.procs })

def putFiles (v : Mounts N) (c : Counts N) (files : FilesStruct N) : Except Fault (Counts N) :=
  if files.filesCount - 1 = 0 then filesDestroy v c { files with filesCount := files.filesCount - 1 } else .ok c

-- do_exit gives the files back only with the mm.
def doExit (v : Mounts N) (s : FsState P N) (proc : P) : Except Fault (FsState P N) := do
  let c ← if s.mm proc then putFiles v s.counts (s.filesp proc) else .ok s.counts
  return { s with counts := c, mm := Function.update s.mm proc false, procs := s.procs.erase proc }

-- do_execve up to where sysfile_open has returned.
def execOpen (v : Mounts N) (s : FsState P N) (proc : P) (path : List Char) (ans : Answers N) : Except Fault (Int × FsState P N) := do
  let (c, files) ← filesCloseall v s.counts (s.filesp proc)
  (s.setFiles proc c files).sysfileOpen v proc path oRdOnly ans

-- none is a call that ends in do_exit.
def doExecve (v : Mounts N) (s : FsState P N) (proc : P) (checked : Int) (path : List Char) (ans : Answers N) (load : LoadIcode) :
    Except Fault (Option Int × FsState P N) :=
  if checked ≠ 0 then .ok (some checked, s)
  else do
    let (fd, s) ← s.execOpen v proc path ans
    if fd < 0 then do
      let s ← s.doExit v proc
      return (none, s)
    else
      match load with
      | .ok => return (some 0, { s with mm := Function.update s.mm proc true })
      | .failsBefore => do
          let s ← { s with mm := Function.update s.mm proc false }.doExit v proc
          return (none, s)
      | .failsAfter => do
          let s ← { s with mm := Function.update s.mm proc true }.doExit v proc
          return (none, s)

def call (v : Mounts N) (s : FsState P N) : FsCall P N → Except Fault (Option Int × FsState P N)
  | .openFile proc path flags ans => (s.sysfileOpen v proc path flags ans).map fun (ret, s) => (some ret, s)
  | .close proc fd => (s.fileClose v proc fd).map fun (ret, s) => (some ret, s)
  | .dup proc fd1 fd2 => (s.fileDup proc fd1 fd2).map fun (ret, s) => (some ret, s)
  | .chdir proc path ans => (s.sysfileChdir v proc path ans).map fun (ret, s) => (some ret, s)
  | .fork proc child created ready => (s.doFork proc child created ready).map fun (ret, s) => (some ret, s)
  | .exec proc checked path ans load => s.doExecve v proc checked path ans load
  | .exit proc => (s.doExit v proc).map fun s => (none, s)

def step (v : Mounts N) (s : FsState P N) (event : FsCall P N) : Option (FsState P N) :=
  match s.call v event with
  | .ok (_, next) => some next
  | .error _ => none

end FsState

end Ucore.Vfs
