import Ucore.Vfs.LayerTotal

set_option autoImplicit false

namespace Ucore.Vfs

open Ucore.Lib

-- An sfs_disk_entry; an unused one has the number 0.
structure DiskEntry (N : Type) where
  ino : Option N
  name : List Char

-- The slots of the directories of a file system, and the inodes of SFS_TYPE_LINK.
structure SfsTree (N : Type) where
  slots : N → List (DiskEntry N)
  link : N → Bool

def maxFnameLen : Nat := 255

section Search

variable {N : Type} [DecidableEq N]

def SfsTree.entry (t : SfsTree N) (dir : N) (name : List Char) : Option N :=
  ((t.slots dir).find? fun slot => slot.ino.isSome ∧ name = slot.name).bind DiskEntry.ino

def direntSearch (t : SfsTree N) (dir : N) (name : List Char) : Except Fault (Option N) := do
  check (name.length ≤ maxFnameLen) .assertFailed
  return t.entry dir name

def direntFindino (t : SfsTree N) (dir node : N) : Option (List Char) :=
  ((t.slots dir).find? fun slot => slot.ino = some node).map DiskEntry.name

-- sfs_load_inode has no operations for a link.
def sfsLoadInode (t : SfsTree N) (c : Counts N) (node : N) : Except Fault (Counts N) := do
  check (¬ t.link node) .assertFailed
  return refInc c node

def sfsLookupOnce (t : SfsTree N) (c : Counts N) (dir : N) (name : List Char) : Except Fault (Counts N × Except Int N) := do
  let found ← direntSearch t dir name
  match found with
  | none => return (c, .error eNoEnt)
  | some node => do
      let c ← sfsLoadInode t c node
      return (c, .ok node)

def sfsLookup (v : Mounts N) (t : SfsTree N) (c : Counts N) (node : N) (path : List Char) : Except Fault (Counts N × Except Int N) := do
  check (path ≠ [] ∧ path.head? ≠ some '/') .assertFailed
  let c := refInc c node
  let (c, found) ← sfsLookupOnce t c node path
  let c ← refDec v c node
  return (c, found)

-- vop_lookup and vfs_lookup over the directories of the file system.
def vopLookupTree (v : Mounts N) (t : SfsTree N) (c : Counts N) (node : N) (path : List Char) : Except Fault (Counts N × Except Int N) := do
  inodeCheck c node
  match v.kind node with
  | .device => if path ≠ [] then return (c, .error eNoEnt) else return (refInc c node, .ok node)
  | .dir => sfsLookup v t c node path
  | .file => .error .assertFailed

def vfsLookupTree (v : Mounts N) (t : SfsTree N) (starts : Starts N) (c : Counts N) (path : List Char) : Except Fault (Counts N × Except Int N) := do
  let (c, found) ← getDevice v starts c path
  match found with
  | .error ret => return (c, .error ret)
  | .ok (node, subpath) =>
      if subpath ≠ [] then do
        let (c, result) ← vopLookupTree v t c node subpath
        let c ← refDec v c node
        return (c, result)
      else return (c, .ok node)

-- What a search answers when it is not for a link.
def answerOf (t : SfsTree N) (node : N) (path : List Char) : Answers N :=
  ⟨0, match t.entry node path with | none => .error eNoEnt | some found => .ok found, 0, 0, .ok 0⟩

-- The search passes its assertions: the name is short enough, and not that of a link.
def Searchable (t : SfsTree N) (node : N) (path : List Char) : Prop := path.length ≤ maxFnameLen ∧ ∀ found ∈ t.entry node path, t.link found = false

theorem vop_lookup_tree (v : Mounts N) (t : SfsTree N) (c : Counts N) (node : N) (path : List Char) (searchable : v.kind node = .dir → Searchable t node path) :
    vopLookupTree v t c node path = vopLookup v c node path (answerOf t node path) := by
  unfold vopLookupTree vopLookup
  cases kind : v.kind node with
  | device => rfl
  | file => rfl
  | dir =>
      obtain ⟨short, plain⟩ := searchable kind
      simp only [sfsLookup, sfsLookupOnce, direntSearch, answerOf, decide_eq_true short, check_true, ok_bind, pure_ok]
      cases found : t.entry node path with
      | none => rfl
      | some sub =>
          have opened : decide (¬ t.link sub = true) = true := by simp [plain sub found]
          simp only [sfsLoadInode, opened, check_true, ok_bind, pure_ok]

theorem vop_lookup_stuck (v : Mounts N) (t : SfsTree N) (c : Counts N) (node : N) (path : List Char) (dir : v.kind node = .dir)
    (stuck : ¬ Searchable t node path) (result : Counts N × Except Int N) : vopLookupTree v t c node path ≠ .ok result := by
  intro returns
  obtain ⟨_, _, returns⟩ := bind_ok returns
  simp only [dir, sfsLookup] at returns
  obtain ⟨_, returns⟩ := check_bind_ok returns
  obtain ⟨⟨mid, found⟩, once, _⟩ := bind_ok returns
  obtain ⟨entry, searched, loaded⟩ := bind_ok once
  obtain ⟨short, same⟩ := check_bind_ok searched
  refine stuck ⟨of_decide_eq_true short, fun sub inside => ?_⟩
  simp only [pure_ok, Except.ok.injEq] at same
  rw [same] at inside
  obtain rfl : entry = some sub := inside
  obtain ⟨_, load, _⟩ := bind_ok loaded
  obtain ⟨opened, _⟩ := check_bind_ok load
  simpa using opened

end Search

end Ucore.Vfs
