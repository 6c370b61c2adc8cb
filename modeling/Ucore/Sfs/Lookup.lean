import Mathlib.Data.List.TakeWhile
import Ucore.Dev.DtbWalk
import Ucore.Sfs.Dirent
import Ucore.Sfs.Remount

set_option autoImplicit false

namespace Ucore.Sfs

open Ucore.Lib
open Ucore.Dev (strcmpSame strcmp_holds)

def eNotDir : Int := -18

-- The loop of sfs_dirent_search_nolock from slot i on. What it finds is the number
-- of the inode and the slot; the empty slot that it stores is the last one it sees.
def direntSearchLoop (sfs : SfsFs) (sin : SfsInode) (name : List UInt8) (entry : Bytes) (emptySlot : Option Int) (i : Nat) :
    Nat → Except Fault (Int × Option (Nat × Nat) × Option Int × SfsFs × SfsInode)
  | 0 => .ok (eNoEnt, none, emptySlot, sfs, sin)
  | rounds + 1 => do
      let (ret, entry, sfs, sin) ← sfsDirentReadNolock sfs sin i entry
      if ret ≠ 0 then return (ret, none, emptySlot, sfs, sin)
      else if entryIno entry = 0 then direntSearchLoop sfs sin name entry (some i) (i + 1) rounds
      else if strcmpSame (entryName entry) 0 name then return (0, some (entryIno entry, i), emptySlot, sfs, sin)
      else direntSearchLoop sfs sin name entry emptySlot (i + 1) rounds

-- What kmalloc gives for the entry holds any bytes, or it gives none.
def sfsDirentSearchNolock (entry : Option Bytes) (sfs : SfsFs) (sin : SfsInode) (name : List UInt8) :
    Except Fault (Int × Option (Nat × Nat) × Option Int × SfsFs × SfsInode) := do
  check (name.length ≤ maxFnameLen) .assertFailed
  match entry with
  | none => return (eNoMem, none, none, sfs, sin)
  | some entry => direntSearchLoop sfs sin name entry (some (toInt sin.din.blocks)) 0 (toInt sin.din.blocks).toNat

-- The result has the inode and its slot.
def sfsLookupOnce (entry : Option Bytes) (sfs : SfsFs) (sin : SfsInode) (name : List UInt8) :
    Except Fault (Int × Option SfsInode × Option Nat × SfsFs × SfsInode) := do
  let (ret, found, _, sfs, sin) ← sfsDirentSearchNolock entry sfs sin name
  match found with
  | none => return (ret, none, none, sfs, sin)
  | some (ino, slot) =>
      let (ret, node, sfs) ← sfsLoadInode sfs ino
      return (ret, node, some slot, sfs, sin)

def sfsLookup (entry : Option Bytes) (sfs : SfsFs) (sin : SfsInode) (path : List UInt8) :
    Except Fault (Int × Option SfsInode × SfsFs × SfsInode) := do
  check (path.head? ≠ none ∧ path.head? ≠ some 47) .assertFailed
  if sin.din.type ≠ typeDir then return (eNotDir, none, sfs, sin)
  else
    let (ret, node, _, sfs, sin) ← sfsLookupOnce entry sfs sin path
    return (ret, node, sfs, sin)

-- vfs_chdir through the directories of a path, one name a call, and vfs_lookup of
-- its last name; memory is what kmalloc gives for the entries of the lookups.
def lookupPath (memory : Nat → Option Bytes) (sfs : SfsFs) (sin : SfsInode) : List (List UInt8) → Except Fault (Int × Option SfsInode × SfsFs)
  | [] => .ok (0, some sin, sfs)
  | name :: rest => do
      let (ret, node, sfs, _) ← sfsLookup (memory rest.length) sfs sin name
      match node with
      | none => return (ret, none, sfs)
      | some node =>
          if rest ≠ [] ∧ node.din.type ≠ typeDir then return (eNotDir, none, sfs)
          else lookupPath memory sfs node rest

-- The string in a record, up to its first zero.
def cName (record : List UInt8) : List UInt8 := record.takeWhile (· ≠ 0)

def findSlot (sfs : SfsFs) (din : SfsDiskInode) (name : List UInt8) (i rounds : Nat) : Option Nat :=
  (usedSlots sfs din i rounds).find? fun j => cName (slotName sfs din j) = name

-- A name that the callers of sfs_lookup pass.
structure LookupName (name : List UInt8) : Prop where
  named : name ≠ []
  relative : name.head? ≠ some 47
  short : name.length ≤ maxFnameLen
  plain : 0 ∉ name

section Names

theorem holds_map (mem : Bytes) (n : Nat) : HoldsAt mem 0 ((List.range n).map mem) := by
  intro i bound
  simp

theorem c_name_plain (record : List UInt8) : 0 ∉ cName record := by
  intro inside
  have nonzero := List.mem_takeWhile_imp inside
  exact of_decide_eq_true nonzero rfl

theorem c_name_split (record : List UInt8) (zero : 0 ∈ record) : ∃ rest, record = cName record ++ 0 :: rest := by
  induction record with
  | nil => simp at zero
  | cons c later ih =>
      by_cases here : c = 0
      · subst here
        exact ⟨later, by simp [cName]⟩
      · obtain ⟨rest, split⟩ := ih ((List.mem_cons.mp zero).resolve_left fun same => here same.symm)
        refine ⟨rest, ?_⟩
        have first : cName (c :: later) = c :: cName later := by simp [cName, here]
        rw [first, List.cons_append, ← split]

theorem strcmp_record (mem : Bytes) (name : List UInt8) (zero : 0 ∈ nameRecord mem) (plain : 0 ∉ name) :
    strcmpSame mem 0 name = decide (cName (nameRecord mem) = name) := by
  obtain ⟨rest, split⟩ := c_name_split (nameRecord mem) zero
  refine strcmp_holds mem name (cName (nameRecord mem)) 0 ?_ plain (c_name_plain _)
  have whole : HoldsAt mem 0 (nameRecord mem) := holds_map mem dentrySize
  rw [split, List.append_cons] at whole
  exact ((holds_append mem 0 _ _).mp whole).1

end Names

section Search

variable (s : SfsFs) (sin : SfsInode)

-- Where the device has no result pending, a quiet step changes nothing.
theorem quiet_same (t : SfsFs) (quiet : Quiet s t) (noFault : s.dev.results = []) : t = s := by
  obtain ⟨results, rfl, still⟩ := quiet
  rw [still noFault, ← noFault]

theorem entry_strcmp (entry : Bytes) (i : Nat) (name : List UInt8) (entryOf : EntryOf s sin entry i) (plain : 0 ∉ name) :
    strcmpSame (entryName entry) 0 name = decide (cName (slotName s sin.din i) = name) := by
  rw [← entryOf.name]
  refine strcmp_record _ name ?_ plain
  rw [entryOf.name, slotName]
  exact List.mem_append_right _ (List.mem_singleton_self 0)

variable (mounted : Mounted s) (noFault : s.dev.results = []) (stored : StoredDir s sin.din) (name : List UInt8) (plain : 0 ∉ name)

include mounted noFault stored plain

theorem dirent_search_loop_spec (rounds : Nat) (entry : Bytes) (emptySlot : Option Int) (i : Nat) (last : i + rounds = sin.din.blocks) :
    ∃ empty', direntSearchLoop s sin name entry emptySlot i rounds =
      .ok (if (findSlot s sin.din name i rounds).isSome then 0 else eNoEnt,
        (findSlot s sin.din name i rounds).map fun j => (slotIno s sin.din j, j), empty', s, sin) := by
  induction rounds generalizing entry emptySlot i with
  | zero => exact ⟨emptySlot, rfl⟩
  | succ rounds ih =>
      obtain ⟨ret, entry', t, quiet, success, found, read⟩ := dirent_read_spec s sin entry i mounted stored (by omega)
      obtain rfl := quiet_same s t quiet noFault
      obtain rfl := success noFault
      have holds := found rfl
      by_cases used : slotIno t sin.din i = 0
      · have skips : findSlot t sin.din name i (rounds + 1) = findSlot t sin.din name (i + 1) rounds := by
          rw [findSlot, usedSlots, List.range'_succ, List.filter_cons_of_neg (by simpa using used), ← usedSlots, ← findSlot]
        obtain ⟨empty', later⟩ := ih entry' (some i) (i + 1) (by omega)
        refine ⟨empty', ?_⟩
        rw [skips, ← later]
        simp only [direntSearchLoop, read, ok_bind, ne_eq, not_true_eq_false, if_false, holds.ino, used, if_true]
      · have takes : findSlot t sin.din name i (rounds + 1) =
            if cName (slotName t sin.din i) = name then some i else findSlot t sin.din name (i + 1) rounds := by
          rw [findSlot, usedSlots, List.range'_succ, List.filter_cons_of_pos (by simpa using used), ← usedSlots, List.find?_cons, ← findSlot]
          by_cases same : cName (slotName t sin.din i) = name
          · simp only [decide_eq_true same, if_pos same]
          · simp only [decide_eq_false same, if_neg same]
        have compared := entry_strcmp t sin entry' i name holds plain
        by_cases same : cName (slotName t sin.din i) = name
        · refine ⟨emptySlot, ?_⟩
          rw [takes, if_pos same]
          simp only [direntSearchLoop, read, ok_bind, ne_eq, not_true_eq_false, if_false, holds.ino, if_neg used, compared, decide_eq_true same, if_true,
            pure_ok, Option.isSome_some, Option.map_some]
        · obtain ⟨empty', later⟩ := ih entry' emptySlot (i + 1) (by omega)
          refine ⟨empty', ?_⟩
          rw [takes, if_neg same, ← later]
          simp only [direntSearchLoop, read, ok_bind, ne_eq, not_true_eq_false, if_false, holds.ino, if_neg used, compared, decide_eq_false same,
            Bool.false_eq_true]

theorem dirent_search_spec (entry : Bytes) (short : name.length ≤ maxFnameLen) :
    ∃ empty', sfsDirentSearchNolock (some entry) s sin name =
      .ok (if (findSlot s sin.din name 0 sin.din.blocks).isSome then 0 else eNoEnt,
        (findSlot s sin.din name 0 sin.din.blocks).map fun j => (slotIno s sin.din j, j), empty', s, sin) := by
  have bounded := stored.bounded
  have whole : toInt (sin.din.blocks : Int) = sin.din.blocks := Int.bmod_eq_of_le (by omega) (by omega)
  obtain ⟨empty', searched⟩ := dirent_search_loop_spec s sin mounted noFault stored name plain sin.din.blocks entry
    (some (toInt sin.din.blocks)) 0 (Nat.zero_add _)
  refine ⟨empty', ?_⟩
  rw [← searched, sfsDirentSearchNolock]
  simp only [decide_eq_true short, check_true, ok_bind, whole, Int.toNat_natCast]

omit stored plain in
-- The inode of a block in use that is not in memory yet.
theorem load_inode_any (ino : Nat) (named : ino ≠ 0) (bound : ino < s.super.blocks) (used : s.freemap.bit ino = false)
    (links : (decodeInode (s.dev.data ino)).nlinks ≠ 0) :
    sfsLoadInode s ino =
      if (decodeInode (s.dev.data ino)).type = typeDir ∨ (decodeInode (s.dev.data ino)).type = typeFile then
        .ok (0, some ⟨decodeInode (s.dev.data ino), ino, false⟩, s)
      else .error .unknownType := by
  obtain ⟨ret, t, quiet, success, read⟩ := rbuf_spec s zeroBytes diskInodeSize ino 0 mounted named bound (by decide) (by decide)
  obtain rfl := quiet_same s t quiet noFault
  obtain rfl := success noFault
  have record : decodeInode (memcpy zeroBytes 0 ((t.dev.data ino).from 0) diskInodeSize) = decodeInode (t.dev.data ino) := by
    refine decode_inode_congr _ _ fun j inside => ?_
    rw [memcpy_inside _ _ _ _ _ (Nat.zero_le j) (by simp only [diskInodeSize]; omega), Bytes.from, Nat.sub_zero, Nat.zero_add]
  rw [sfsLoadInode, block_inuse_spec t ino mounted named bound, used, read]
  simp only [ok_bind, Bool.not_false, check_true, if_true, ne_eq, not_true_eq_false, if_false, record, decide_eq_true links, pure_ok]
  by_cases known : (decodeInode (t.dev.data ino)).type = typeDir ∨ (decodeInode (t.dev.data ino)).type = typeFile
  · rw [decide_eq_true known, check_true, ok_bind, if_pos known]
  · rw [decide_eq_false known, check_false, error_bind, if_neg known]

omit plain in
theorem lookup_missing (entry : Bytes) (valid : LookupName name) (missing : findSlot s sin.din name 0 sin.din.blocks = none) :
    sfsLookup (some entry) s sin name = .ok (eNoEnt, none, s, sin) := by
  obtain ⟨empty', searched⟩ := dirent_search_spec s sin mounted noFault stored name valid.plain entry valid.short
  have proper : name.head? ≠ none ∧ name.head? ≠ some 47 := ⟨fun empty => valid.named (List.head?_eq_none_iff.mp empty), valid.relative⟩
  have dir : ¬ sin.din.type ≠ typeDir := fun other => other stored.type
  rw [missing] at searched
  rw [sfsLookup, decide_eq_true proper, check_true, ok_bind, if_neg dir, sfsLookupOnce, searched]
  rfl

omit plain in
theorem lookup_found (entry : Bytes) (valid : LookupName name) (j : Nat) (found : findSlot s sin.din name 0 sin.din.blocks = some j) :
    sfsLookup (some entry) s sin name =
      (sfsLoadInode s (slotIno s sin.din j)).map fun reply => (reply.1, reply.2.1, reply.2.2, sin) := by
  obtain ⟨empty', searched⟩ := dirent_search_spec s sin mounted noFault stored name valid.plain entry valid.short
  have proper : name.head? ≠ none ∧ name.head? ≠ some 47 := ⟨fun empty => valid.named (List.head?_eq_none_iff.mp empty), valid.relative⟩
  have dir : ¬ sin.din.type ≠ typeDir := fun other => other stored.type
  rw [found] at searched
  rw [sfsLookup, decide_eq_true proper, check_true, ok_bind, if_neg dir, sfsLookupOnce, searched]
  simp only [ok_bind, Option.map_some]
  cases sfsLoadInode s (slotIno s sin.din j) with
  | error fault => rfl
  | ok reply => rfl

end Search

end Ucore.Sfs
