import Ucore.Lib.Run
import Ucore.Vfs.Inode

set_option autoImplicit false

namespace Ucore.Sfs

open Ucore.Lib Ucore.Vfs

-- Where a process is: off the file system, before lock_sfs_fs in sfs_load_inode or
-- in sfs_reclaim, or with the semaphore and asleep while a block is read or written.
inductive CachePhase (N : Type) where
  | outside
  | lockLoad (ino : Nat)
  | loading (ino : Nat)
  | lockReclaim (node : N)
  | syncing (node : N)
deriving DecidableEq

-- A load that returned: the inode, and the linked ones then with their numbers.
structure Loaded (N : Type) where
  ino : Nat
  node : N
  linked : List (N × Nat)

-- A reclaim that freed an inode: its counts, whether a lookup had returned it since
-- the last decrement, and how many other reclaims of it were to come.
structure Freed (N : Type) where
  node : N
  refCount : Int
  openCount : Int
  revived : Bool
  pending : Int

-- linked has the inodes of all hash lists. fsSem is the process that is between
-- lock_sfs_fs and unlock_sfs_fs; any process that waits may be the next.
structure CacheState (P N : Type) where
  counts : Counts N
  reclaimCount : N → Int
  ino : N → Nat
  linked : List N
  fsSem : Option P
  phase : P → CachePhase N
  revived : N → Bool
  loads : List (Loaded N)
  frees : List (Freed N)

-- What may happen between two sleeps. create has the inode that alloc_inode
-- returns, or none where kmalloc or the read of the block fails; dirty is sin->dirty.
inductive CacheCall (P N : Type) where
  | loadInode (proc : P) (ino : Nat)
  | lookup (proc : P)
  | create (proc : P) (node : Option N)
  | refInc (node : N)
  | refDec (proc : P) (node : N)
  | openInc (node : N)
  | openDec (node : N)
  | reclaim (proc : P) (dirty : Bool)
  | synced (proc : P) (ok : Bool)

namespace CacheState

variable {P N : Type} [DecidableEq P] [DecidableEq N]

def boot : CacheState P N := ⟨⟨fun _ => 0, fun _ => 0⟩, fun _ => 0, fun _ => 0, [], none, fun _ => .outside, fun _ => false, [], []⟩

def setPhase (s : CacheState P N) (proc : P) (phase : CachePhase N) : CacheState P N :=
  { s with phase := Function.update s.phase proc phase }

-- How many of the processes are before lock_sfs_fs in a reclaim of node.
def pending (procs : List P) (s : CacheState P N) (node : N) : Int :=
  (procs.map fun proc => if s.phase proc = .lockReclaim node then 1 else 0).sum

-- sfs_load_inode from where it has node, up to its return.
def returnNode (s : CacheState P N) (proc : P) (ino : Nat) (node : N) : CacheState P N :=
  { s.setPhase proc .outside with fsSem := none, loads := ⟨ino, node, s.linked.map fun other => (other, s.ino other)⟩ :: s.loads }

-- vop_ref_inc in lookup_sfs_nolock.
def revive (s : CacheState P N) (node : N) : CacheState P N :=
  let counts := refInc s.counts node
  { s with
    counts := counts
    reclaimCount := if counts.refCount node = 1 then Function.update s.reclaimCount node (s.reclaimCount node + 1) else s.reclaimCount
    revived := Function.update s.revived node true }

def lookupNolock (s : CacheState P N) (proc : P) (ino : Nat) : CacheState P N :=
  match s.linked.find? fun node => s.ino node = ino with
  | some node => (s.revive node).returnNode proc ino node
  | none => { s.setPhase proc (.loading ino) with fsSem := some proc }

-- sfs_create_inode with sfs_set_links.
def createInode (s : CacheState P N) (proc : P) (ino : Nat) (node : N) : CacheState P N :=
  let counts : Counts N := ⟨Function.update s.counts.refCount node 0, Function.update s.counts.openCount node 0⟩
  let s := { s with
    counts := refInc counts node
    reclaimCount := Function.update s.reclaimCount node 1
    ino := Function.update s.ino node ino
    linked := node :: s.linked
    revived := Function.update s.revived node false }
  s.returnNode proc ino node

-- The end of sfs_reclaim; nlinks is not 0, as sfs_load_inode asserts and no
-- operation changes it.
def killInode (procs : List P) (s : CacheState P N) (proc : P) (node : N) : Except Vfs.Fault (CacheState P N) := do
  check (s.counts.refCount node = 0) .assertFailed
  check (s.counts.openCount node = 0) .assertFailed
  let freed := ⟨node, s.counts.refCount node, s.counts.openCount node, s.revived node, s.pending procs node⟩
  return { s.setPhase proc .outside with fsSem := none, linked := s.linked.erase node, frees := freed :: s.frees }

-- sfs_reclaim from lock_sfs_fs on, up to vop_fsync of a dirty inode.
def reclaimNode (procs : List P) (s : CacheState P N) (proc : P) (node : N) (dirty : Bool) : Except Vfs.Fault (CacheState P N) := do
  check (0 < s.reclaimCount node) .assertFailed
  let s := { s.setPhase proc .outside with reclaimCount := Function.update s.reclaimCount node (s.reclaimCount node - 1) }
  if s.reclaimCount node ≠ 0 ∨ s.counts.refCount node ≠ 0 then return s
  else if dirty then return { s.setPhase proc (.syncing node) with fsSem := some proc }
  else s.killInode procs proc node

-- inode_ref_dec, which calls sfs_reclaim.
def refDecNode (s : CacheState P N) (proc : P) (node : N) : Except Vfs.Fault (CacheState P N) := do
  check (0 < s.counts.refCount node) .assertFailed
  let counts := { s.counts with refCount := Function.update s.counts.refCount node (s.counts.refCount node - 1) }
  let s := { s with counts := counts, revived := Function.update s.revived node false }
  if s.counts.refCount node = 0 then do
    inodeCheck s.counts node
    return s.setPhase proc (.lockReclaim node)
  else return s

def call (procs : List P) (s : CacheState P N) : CacheCall P N → Except Vfs.Fault (CacheState P N)
  | .loadInode proc ino => .ok (s.setPhase proc (.lockLoad ino))
  | .lookup proc =>
      match s.phase proc with
      | .lockLoad ino => .ok (s.lookupNolock proc ino)
      | _ => .ok s
  | .create proc node =>
      match s.phase proc, node with
      | .loading ino, some node => .ok (s.createInode proc ino node)
      | .loading _, none => .ok { s.setPhase proc .outside with fsSem := none }
      | _, _ => .ok s
  | .refInc node => .ok { s with counts := refInc s.counts node }
  | .refDec proc node => s.refDecNode proc node
  | .openInc node => .ok { s with counts := openInc s.counts node }
  | .openDec node => do
      let counts ← openDec s.counts node
      return { s with counts := counts }
  | .reclaim proc dirty =>
      match s.phase proc with
      | .lockReclaim node => s.reclaimNode procs proc node dirty
      | _ => .ok s
  | .synced proc ok =>
      match s.phase proc with
      | .syncing node => if ok then s.killInode procs proc node else .ok { s.setPhase proc .outside with fsSem := none }
      | _ => .ok s

def step (procs : List P) (s : CacheState P N) (event : CacheCall P N) : Option (CacheState P N) :=
  match s.call procs event with
  | .ok next => some next
  | .error _ => none

-- Who has a reference may take another and drop it; an open file has one of its
-- own. kmalloc returns no inode that is in use.
def Enabled (procs : List P) (s : CacheState P N) : CacheCall P N → Prop
  | .loadInode proc _ => proc ∈ procs ∧ s.phase proc = .outside
  | .lookup proc => proc ∈ procs ∧ s.fsSem = none
  | .create proc node => proc ∈ procs ∧ ∀ fresh ∈ node, fresh ∉ s.linked
  | .refInc node => 0 < s.counts.refCount node
  | .refDec proc node => proc ∈ procs ∧ s.phase proc = .outside ∧ s.counts.openCount node < s.counts.refCount node
  | .openInc node => s.counts.openCount node < s.counts.refCount node
  | .openDec node => 0 < s.counts.openCount node
  | .reclaim proc _ => proc ∈ procs ∧ s.fsSem = none
  | .synced proc _ => proc ∈ procs

instance (procs : List P) (s : CacheState P N) (event : CacheCall P N) : Decidable (s.Enabled procs event) := by
  cases event <;> unfold Enabled <;> infer_instance

end CacheState

end Ucore.Sfs
