import Mathlib.Logic.Function.Basic
import Ucore.Lib.Checked

set_option autoImplicit false

namespace Ucore.Vfs

open Ucore.Lib

inductive Fault where
  | assertFailed
deriving DecidableEq, Repr

def eInval : Int := -3
def eNoMem : Int := -4
def eNoDev : Int := -13
def eNaDev : Int := -14
def eBusy : Int := -15
def eNoEnt : Int := -16
def eIsDir : Int := -17
def eNotDir : Int := -18
def eMaxOpen : Int := -22
def eExists : Int := -23

def oRdOnly : BitVec 32 := 0
def oWrOnly : BitVec 32 := 1
def oRdWr : BitVec 32 := 2
def oCreat : BitVec 32 := 0x04
def oExcl : BitVec 32 := 0x08
def oTrunc : BitVec 32 := 0x10
def oAppend : BitVec 32 := 0x20
def oAccMode : BitVec 32 := 3

def has (flags flag : BitVec 32) : Bool := flags &&& flag ≠ 0

-- Directories and files of a file system have the operations of sfs_node_dirops
-- and sfs_node_fileops, devices those of dev_node_ops.
inductive InodeKind where
  | dir
  | file
  | device
deriving DecidableEq, Repr

-- An entry of the device table; root is the root directory of the file system
-- mounted there.
structure VfsDev (N : Type) where
  devname : List Char
  devnode : N
  root : Option N
  mountable : Bool

-- What does not change: inodes with their kinds and the root directory of their
-- file system, and the devices.
structure Mounts (N : Type) where
  kind : N → InodeKind
  rootOf : N → N
  devs : List (VfsDev N)

-- ref_count and open_count of all inodes. One that is not in memory has 0 in both.
structure Counts (N : Type) where
  refCount : N → Int
  openCount : N → Int

-- What the layers below answer in a call: copy_path, the search in a directory,
-- and the operations on a device or a file; an error has a code other than 0.
structure Answers (N : Type) where
  copyPath : Int
  lookup : Except Int N
  devOpen : Int
  truncate : Int
  fstat : Except Int Int

-- Where names start: the working directory and the boot file system.
structure Starts (N : Type) where
  pwd : Option N
  bootfs : Option N

def maxInodeCount : Int := 0x10000

section Inodes

variable {N : Type} [DecidableEq N]

-- The assertions of inode_check about the counts.
def inodeCheck (c : Counts N) (node : N) : Except Fault Unit := do
  check (c.openCount node ≤ c.refCount node ∧ 0 ≤ c.openCount node) .assertFailed
  check (c.refCount node < maxInodeCount ∧ c.openCount node < maxInodeCount) .assertFailed

def refInc (c : Counts N) (node : N) : Counts N :=
  { c with refCount := Function.update c.refCount node (c.refCount node + 1) }

-- A device has no vop_reclaim. The rest of vop_reclaim leaves the counts alone.
def refDec (v : Mounts N) (c : Counts N) (node : N) : Except Fault (Counts N) := do
  check (0 < c.refCount node) .assertFailed
  let c := { c with refCount := Function.update c.refCount node (c.refCount node - 1) }
  if c.refCount node = 0 then do
    check (v.kind node ≠ .device) .assertFailed
    inodeCheck c node
    return c
  else return c

def openInc (c : Counts N) (node : N) : Counts N :=
  { c with openCount := Function.update c.openCount node (c.openCount node + 1) }

def openDec (c : Counts N) (node : N) : Except Fault (Counts N) := do
  check (0 < c.openCount node) .assertFailed
  let c := { c with openCount := Function.update c.openCount node (c.openCount node - 1) }
  if c.openCount node = 0 then do
    inodeCheck c node
    return c
  else return c

def vfsClose (v : Mounts N) (c : Counts N) (node : N) : Except Fault (Counts N) := do
  let c ← openDec c node
  refDec v c node

end Inodes

section Lookup

variable {N : Type} [DecidableEq N]

def vfsGetCurdir (starts : Starts N) (c : Counts N) : Counts N × Except Int N :=
  match starts.pwd with
  | some node => (refInc c node, .ok node)
  | none => (c, .error eNoEnt)

def vfsGetBootfs (starts : Starts N) (c : Counts N) : Counts N × Except Int N :=
  match starts.bootfs with
  | some node => (refInc c node, .ok node)
  | none => (c, .error eNoEnt)

def vfsGetRoot (v : Mounts N) (c : Counts N) (devname : List Char) : Counts N × Except Int N :=
  match v.devs.find? fun dev => dev.devname = devname with
  | none => (c, .error eNoDev)
  | some dev =>
      match dev.root with
      | some root => (refInc c root, .ok root)
      | none => if ¬ dev.mountable then (refInc c dev.devnode, .ok dev.devnode) else (c, .error eNaDev)

def isMark (c : Char) : Bool := c = ':' ∨ c = '/'

def skipSlashes (path : List Char) : List Char := path.dropWhile fun c => c = '/'

-- get_device, with the rest of the path.
def getDevice (v : Mounts N) (starts : Starts N) (c : Counts N) (path : List Char) :
    Except Fault (Counts N × Except Int (N × List Char)) :=
  let first := path.takeWhile fun c => ¬ isMark c
  match first, path.drop first.length with
  | [], ':' :: rest =>
      match vfsGetCurdir starts c with
      | (c, .error ret) => .ok (c, .error ret)
      | (c, .ok node) => do
          let root := v.rootOf node
          let c ← refDec v (refInc c root) node
          return (c, .ok (root, skipSlashes rest))
  | [], '/' :: rest =>
      let (c, found) := vfsGetBootfs starts c
      .ok (c, found.map fun node => (node, skipSlashes rest))
  | _ :: _, ':' :: rest =>
      let (c, found) := vfsGetRoot v c first
      .ok (c, found.map fun node => (node, skipSlashes rest))
  | _, _ =>
      let (c, found) := vfsGetCurdir starts c
      .ok (c, found.map fun node => (node, path))

-- What get_device leaves in the buffer of the path.
def cutPath (path : List Char) : List Char :=
  let first := path.takeWhile fun c => ¬ isMark c
  match first, path.drop first.length with
  | _ :: _, ':' :: _ => first
  | _, _ => path

-- dev_lookup and sfs_lookup; a file has no vop_lookup.
def vopLookup (v : Mounts N) (c : Counts N) (node : N) (path : List Char) (ans : Answers N) : Except Fault (Counts N × Except Int N) := do
  inodeCheck c node
  match v.kind node with
  | .device => if path ≠ [] then return (c, .error eNoEnt) else return (refInc c node, .ok node)
  | .dir => do
      check (path ≠ [] ∧ path.head? ≠ some '/') .assertFailed
      let c := refInc c node
      match ans.lookup with
      | .error ret => do
          let c ← refDec v c node
          return (c, .error ret)
      | .ok subnode => do
          let c ← refDec v (refInc c subnode) node
          return (c, .ok subnode)
  | .file => .error .assertFailed

def vfsLookup (v : Mounts N) (starts : Starts N) (c : Counts N) (path : List Char) (ans : Answers N) :
    Except Fault (Counts N × Except Int N) := do
  let (c, found) ← getDevice v starts c path
  match found with
  | .error ret => return (c, .error ret)
  | .ok (node, subpath) =>
      if subpath ≠ [] then do
        let (c, result) ← vopLookup v c node subpath ans
        let c ← refDec v c node
        return (c, result)
      else return (c, .ok node)

end Lookup

section Opening

variable {N : Type} [DecidableEq N]

-- dev_open, sfs_opendir and sfs_openfile.
def vopOpen (v : Mounts N) (c : Counts N) (node : N) (flags : BitVec 32) (ans : Answers N) : Except Fault Int := do
  inodeCheck c node
  match v.kind node with
  | .device => return if has flags (oCreat ||| oTrunc ||| oExcl ||| oAppend) then eInval else ans.devOpen
  | .dir => return if flags &&& oAccMode ≠ oRdOnly then eIsDir else if has flags oAppend then eIsDir else 0
  | .file => return 0

-- Files alone have vop_truncate.
def vopTruncate (v : Mounts N) (c : Counts N) (node : N) (ans : Answers N) : Except Fault Int := do
  check (v.kind node = .file) .assertFailed
  inodeCheck c node
  return ans.truncate

-- vfs_open from vop_open on.
def vfsOpenNode (v : Mounts N) (c : Counts N) (node : N) (flags : BitVec 32) (ans : Answers N) : Except Fault (Counts N × Except Int N) := do
  let ret ← vopOpen v c node flags ans
  if ret ≠ 0 then do
    let c ← refDec v c node
    return (c, .error ret)
  else
    let c := openInc c node
    if has flags oTrunc ∨ has flags oCreat then do
      let ret ← vopTruncate v c node ans
      if ret ≠ 0 then do
        let c ← vfsClose v c node
        return (c, .error ret)
      else return (c, .ok node)
    else return (c, .ok node)

def vfsOpen (v : Mounts N) (starts : Starts N) (c : Counts N) (path : List Char) (flags : BitVec 32) (ans : Answers N) :
    Except Fault (Counts N × Except Int N) :=
  if flags &&& oAccMode = oAccMode then .ok (c, .error eInval)
  else if has flags oTrunc ∧ flags &&& oAccMode = oRdOnly then .ok (c, .error eInval)
  else do
    let (c, found) ← vfsLookup v starts c path ans
    match found with
    | .error ret =>
        if ret = eNoEnt ∧ has flags oCreat then do
          -- vfs_lookup_parent; then no inode has vop_create.
          let (c, dir) ← getDevice v starts c (cutPath path)
          match dir with
          | .error ret => return (c, .error ret)
          | .ok _ => .error .assertFailed
        else return (c, .error ret)
    | .ok node =>
        if has flags oExcl ∧ has flags oCreat then return (c, .error eExists)
        else vfsOpenNode v c node flags ans

-- vfs_chdir with vfs_set_curdir: the new working directory.
def vfsChdir (v : Mounts N) (starts : Starts N) (c : Counts N) (path : List Char) (ans : Answers N) :
    Except Fault (Counts N × Except Int (Option N)) := do
  let (c, found) ← vfsLookup v starts c path ans
  match found with
  | .error ret => return (c, .error ret)
  | .ok node =>
      if starts.pwd = some node then do
        let c ← refDec v c node
        return (c, .ok starts.pwd)
      else do
        inodeCheck c node
        if v.kind node ≠ .dir then do
          let c ← refDec v c node
          return (c, .error eNotDir)
        else do
          let c := refInc c node
          let c ← match starts.pwd with
            | some old => refDec v c old
            | none => .ok c
          let c ← refDec v c node
          return (c, .ok (some node))

end Opening

end Ucore.Vfs
