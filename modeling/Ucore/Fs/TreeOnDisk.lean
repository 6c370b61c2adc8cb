import Ucore.Sfs.Lookup
import Ucore.Vfs.PathTree

set_option autoImplicit false

namespace Ucore.Fs

open Ucore.Lib Ucore.Vfs

def chars (name : List UInt8) : List Char := name.map fun byte => Char.ofNat byte.toNat

-- The slots of a directory as they are on the disk.
def diskSlots (sfs : Sfs.SfsFs) (din : Sfs.SfsDiskInode) : List (DiskEntry Nat) :=
  (List.range din.blocks).map fun i =>
    ⟨if Sfs.slotIno sfs din i = 0 then none else some (Sfs.slotIno sfs din i), chars (Sfs.cName (Sfs.slotName sfs din i))⟩

-- The directories of a disk, over the numbers of its inodes. What is neither a
-- directory nor a file has no operations, as a link.
def treeOnDisk (sfs : Sfs.SfsFs) : SfsTree Nat where
  slots := fun ino => diskSlots sfs (Sfs.decodeInode (sfs.dev.data ino))
  link := fun ino =>
    !decide ((Sfs.decodeInode (sfs.dev.data ino)).type = Sfs.typeDir ∨ (Sfs.decodeInode (sfs.dev.data ino)).type = Sfs.typeFile)

theorem char_nat (byte : UInt8) : (Char.ofNat byte.toNat).toNat = byte.toNat := by
  have small := byte.toNat_lt
  have valid : byte.toNat.isValidChar := .inl (by omega)
  rw [Char.ofNat, dif_pos valid]
  rfl

theorem chars_injective : Function.Injective chars := by
  refine List.map_injective_iff.mpr fun a b same => ?_
  have nats := congrArg Char.toNat same
  rw [char_nat, char_nat] at nats
  exact UInt8.toNat.inj nats

-- The two searches find the same entry.
theorem entry_on_disk (sfs : Sfs.SfsFs) (ino : Nat) (name : List UInt8) : (treeOnDisk sfs).entry ino (chars name) =
    (Sfs.findSlot sfs (Sfs.decodeInode (sfs.dev.data ino)) name 0 (Sfs.decodeInode (sfs.dev.data ino)).blocks).map
      (Sfs.slotIno sfs (Sfs.decodeInode (sfs.dev.data ino))) := by
  rw [SfsTree.entry, Sfs.findSlot, Sfs.usedSlots, ← List.range_eq_range']
  simp only [treeOnDisk, diskSlots]
  generalize Sfs.decodeInode (sfs.dev.data ino) = din
  generalize List.range din.blocks = slots
  induction slots with
  | nil => rfl
  | cons i slots ih =>
      rw [List.map_cons]
      by_cases used : Sfs.slotIno sfs din i = 0
      · rw [List.find?_cons_of_neg (by simp [used]), List.filter_cons_of_neg (by simp [used]), ih]
      · rw [List.filter_cons_of_pos (by simp [used])]
        by_cases same : Sfs.cName (Sfs.slotName sfs din i) = name
        · rw [List.find?_cons_of_pos (by simp [used, same]), List.find?_cons_of_pos (by simp [same])]
          simp only [if_neg used, Option.bind_some, Option.map_some]
        · have differ : chars name ≠ chars (Sfs.cName (Sfs.slotName sfs din i)) := fun equal => same (chars_injective equal).symm
          rw [List.find?_cons_of_neg (by simp [differ]), List.find?_cons_of_neg (by simp [same]), ih]

section Lookup

variable (s : Sfs.SfsFs) (sin : Sfs.SfsInode) (mounted : Sfs.Mounted s) (noFault : s.dev.results = []) (stored : Sfs.StoredDir s sin.din)
  (clean : Sfs.decodeInode (s.dev.data sin.ino) = sin.din) (name : List UInt8) (valid : Sfs.LookupName name) (entry : Bytes)

include mounted noFault stored clean valid

-- sfs_lookup on the disk: it loads the inode that the tree has under the name.
theorem sfs_lookup_on_disk : Sfs.sfsLookup (some entry) s sin name = ((treeOnDisk s).entry sin.ino (chars name)).elim (.ok (Sfs.eNoEnt, none, s, sin))
    fun found => (Sfs.sfsLoadInode s found).map fun reply => (reply.1, reply.2.1, reply.2.2, sin) := by
  rw [entry_on_disk, clean]
  cases found : Sfs.findSlot s sin.din name 0 sin.din.blocks with
  | none => exact Sfs.lookup_missing s sin mounted noFault stored name entry valid found
  | some j => exact Sfs.lookup_found s sin mounted noFault stored name entry valid j found

-- The same inode, the same code or the same fault as the lookup in the tree, where the
-- entries of the directory name inodes in use.
theorem lookup_once_on_disk (c : Counts Nat) (inodes : ∀ found ∈ (treeOnDisk s).entry sin.ino (chars name), found ≠ 0 ∧ found < s.super.blocks ∧
      s.freemap.bit found = false ∧ (Sfs.decodeInode (s.dev.data found)).nlinks ≠ 0) :
    (Vfs.sfsLookupOnce (treeOnDisk s) c sin.ino (chars name) = .ok (c, .error Vfs.eNoEnt) ∧
        Sfs.sfsLookup (some entry) s sin name = .ok (Sfs.eNoEnt, none, s, sin)) ∨
      ∃ found, (Vfs.sfsLookupOnce (treeOnDisk s) c sin.ino (chars name) = .ok (refInc c found, .ok found) ∧
          Sfs.sfsLookup (some entry) s sin name = .ok (0, some ⟨Sfs.decodeInode (s.dev.data found), found, false⟩, s, sin)) ∨
        Vfs.sfsLookupOnce (treeOnDisk s) c sin.ino (chars name) = .error .assertFailed ∧
          Sfs.sfsLookup (some entry) s sin name = .error .unknownType := by
  have looked := sfs_lookup_on_disk s sin mounted noFault stored clean name valid entry
  have short : (chars name).length ≤ Vfs.maxFnameLen := by
    rw [chars, List.length_map]
    exact valid.short
  rw [Vfs.sfsLookupOnce, Vfs.direntSearch, decide_eq_true short, check_true]
  simp only [ok_bind, pure_ok]
  cases here : (treeOnDisk s).entry sin.ino (chars name) with
  | none =>
      rw [here] at looked
      exact .inl ⟨rfl, looked⟩
  | some found =>
      obtain ⟨named, bound, used, links⟩ := inodes found here
      rw [here, Option.elim_some, Sfs.load_inode_any s mounted noFault found named bound used links] at looked
      refine .inr ⟨found, ?_⟩
      by_cases known : (Sfs.decodeInode (s.dev.data found)).type = Sfs.typeDir ∨ (Sfs.decodeInode (s.dev.data found)).type = Sfs.typeFile
      · have opened : decide (¬ (treeOnDisk s).link found = true) = true := by simpa [treeOnDisk] using known
        rw [if_pos known] at looked
        simp only [Vfs.sfsLoadInode, opened, check_true, ok_bind, pure_ok]
        exact .inl ⟨trivial, looked⟩
      · have closed : decide (¬ (treeOnDisk s).link found = true) = false := by simpa [treeOnDisk] using known
        rw [if_neg known] at looked
        simp only [Vfs.sfsLoadInode, closed, check_false, error_bind]
        exact .inr ⟨trivial, looked⟩

end Lookup

end Ucore.Fs
