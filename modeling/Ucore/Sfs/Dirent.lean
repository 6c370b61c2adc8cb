import Ucore.Sfs.ReadExact

set_option autoImplicit false

namespace Ucore.Sfs

open Ucore.Lib

def eNoEnt : Int := -16

-- struct sfs_disk_entry: the inode number and the name with its null.
def maxFnameLen : Nat := 255
def dentrySize : Nat := maxFnameLen + 1
def diskEntrySize : Nat := 4 + dentrySize

def entryIno (entry : Bytes) : Nat := getLe entry 0 4
def entryName (entry : Bytes) : Bytes := entry.from 4

def toInt (n : Int) : Int := Int.bmod n (2 ^ 32)

def sfsDirentReadNolock (sfs : SfsFs) (sin : SfsInode) (slot : Nat) (entry : Bytes) : Except Fault (Int × Bytes × SfsFs × SfsInode) := do
  check (sin.din.type = typeDir ∧ slot < sin.din.blocks) .assertFailed
  let (ret, ino, sfs, sin) ← sfsBmapLoadNolock sfs sin slot
  if ret ≠ 0 then return (ret, entry, sfs, sin)
  else
    check (← sfsBlockInuse sfs ino) .assertFailed
    let (ret, entry, sfs) ← sfsRbuf sfs entry diskEntrySize ino 0
    if ret ≠ 0 then return (ret, entry, sfs, sin)
    else return (0, memcpy entry (4 + maxFnameLen) zeroBytes 1, sfs, sin)

-- The loop of sfs_getdirentry_sub_nolock from slot i on; slot counts down the used ones.
def getdirentryLoop (sfs : SfsFs) (sin : SfsInode) (slot : Int) (entry : Bytes) (i : Nat) : Nat → Except Fault (Int × Bytes × SfsFs × SfsInode)
  | 0 => .ok (eNoEnt, entry, sfs, sin)
  | rounds + 1 => do
      let (ret, entry, sfs, sin) ← sfsDirentReadNolock sfs sin i entry
      if ret ≠ 0 then return (ret, entry, sfs, sin)
      else if entryIno entry ≠ 0 then
        if slot = 0 then return (0, entry, sfs, sin)
        else getdirentryLoop sfs sin (slot - 1) entry (i + 1) rounds
      else getdirentryLoop sfs sin slot entry (i + 1) rounds

def sfsGetdirentrySubNolock (sfs : SfsFs) (sin : SfsInode) (slot : Int) (entry : Bytes) : Except Fault (Int × Bytes × SfsFs × SfsInode) :=
  getdirentryLoop sfs sin slot entry 0 (toInt sin.din.blocks).toNat

-- iobuf_move from memory to a buffer of resid bytes: the code, the buffer and the bytes moved.
def iobufMove (buf : Bytes) (resid : Nat) (data : Bytes) (len : Nat) : Int × Bytes × Nat :=
  let alen := if len < resid then len else resid
  (if len - alen = 0 then 0 else eNoMem, memcpy buf 0 data alen, alen)

-- What kmalloc gives for the entry holds any bytes, or it gives none. The result is the code,
-- the buffer, iobuf_used, the file system and the inode.
def sfsGetdirentry (entry : Option Bytes) (sfs : SfsFs) (sin : SfsInode) (buf : Bytes) (resid : Nat) (offset : Int) :
    Except Fault (Int × Bytes × Nat × SfsFs × SfsInode) :=
  match entry with
  | none => .ok (eNoMem, buf, 0, sfs, sin)
  | some entry =>
      if offset < 0 ∨ offset % dentrySize ≠ 0 then .ok (eInval, buf, 0, sfs, sin)
      else
        let slot := toInt (offset / dentrySize)
        -- The comparison with the unsigned number of blocks is unsigned.
        if (sin.din.blocks : Int) < slot % 2 ^ 32 then .ok (eNoEnt, buf, 0, sfs, sin)
        else do
          let (ret, entry, sfs, sin) ← sfsGetdirentrySubNolock sfs sin slot entry
          if ret ≠ 0 then return (ret, buf, 0, sfs, sin)
          else
            let (ret, buf, used) := iobufMove buf resid (entryName entry) dentrySize
            return (ret, buf, used, sfs, sin)

structure Dirent where
  offset : Int
  name : Bytes

-- file_getdirentry on the file that fd2file finds.
def fileGetdirentry (entry : Option Bytes) (sfs : SfsFs) (sin : SfsInode) (direntp : Dirent) : Except Fault (Int × Dirent × SfsFs × SfsInode) := do
  let (ret, name, used, sfs, sin) ← sfsGetdirentry entry sfs sin direntp.name dentrySize direntp.offset
  return (ret, ⟨if ret = 0 then toOff (direntp.offset + used) else direntp.offset, name⟩, sfs, sin)

-- A directory as it is stored: a block in use for each of its slots.
structure StoredDir (sfs : SfsFs) (din : SfsDiskInode) : Prop where
  type : din.type = typeDir
  bounded : din.blocks ≤ 1036
  inUse : InUse sfs din

section Slots

variable (sfs : SfsFs) (din : SfsDiskInode)

def slotIno (i : Nat) : Nat := entryIno (sfs.dev.data (slot sfs din i))

-- The last byte of a name is read as its null.
def slotName (i : Nat) : List UInt8 := (List.range maxFnameLen).map (entryName (sfs.dev.data (slot sfs din i))) ++ [0]

def usedSlots (i rounds : Nat) : List Nat := (List.range' i rounds).filter fun i => slotIno sfs din i ≠ 0

def dirNames : List (List UInt8) := (usedSlots sfs din 0 din.blocks).map (slotName sfs din)

end Slots

def nameRecord (buf : Bytes) : List UInt8 := (List.range dentrySize).map buf

section Reads

variable (s : SfsFs) (sin : SfsInode)

theorem slot_ino_quiet (t : SfsFs) (quiet : Quiet s t) (din : SfsDiskInode) : slotIno t din = slotIno s din := by
  funext i
  rw [slotIno, slotIno, quiet_slot s t din quiet, quiet_data s t quiet]

theorem slot_name_quiet (t : SfsFs) (quiet : Quiet s t) (din : SfsDiskInode) : slotName t din = slotName s din := by
  funext i
  rw [slotName, slotName, quiet_slot s t din quiet, quiet_data s t quiet]

theorem stored_quiet (t : SfsFs) (quiet : Quiet s t) (din : SfsDiskInode) (stored : StoredDir s din) : StoredDir t din :=
  ⟨stored.type, stored.bounded, quiet_in_use s t din quiet stored.inUse⟩

-- The entry of a slot in memory.
structure EntryOf (entry : Bytes) (i : Nat) : Prop where
  ino : entryIno entry = slotIno s sin.din i
  name : nameRecord (entryName entry) = slotName s sin.din i

theorem entry_of_block (entry block : Bytes) (i : Nat) (same : block = s.dev.data (slot s sin.din i)) :
    EntryOf s sin (memcpy (memcpy entry 0 (block.from 0) diskEntrySize) (4 + maxFnameLen) zeroBytes 1) i := by
  subst same
  constructor
  · rw [entryIno, get_le_memcpy_other _ _ _ _ _ _ (.inl (by simp only [maxFnameLen]; omega)), slotIno, entryIno]
    refine get_le_congr _ _ 0 0 4 fun k below => ?_
    rw [memcpy_inside _ _ _ _ _ (Nat.zero_le _) (by simp only [diskEntrySize, dentrySize, maxFnameLen]; omega)]
    simp [Bytes.from]
  · rw [nameRecord, slotName, dentrySize, List.range_succ, List.map_append, List.map_singleton]
    have last : entryName (memcpy (memcpy entry 0 ((s.dev.data (slot s sin.din i)).from 0) diskEntrySize) (4 + maxFnameLen) zeroBytes 1) maxFnameLen = 0 := by
      rw [entryName, Bytes.from, memcpy_inside _ _ _ _ _ (Nat.le_refl _) (Nat.lt_succ_self _), zeroBytes]
    have first : ∀ k ∈ List.range maxFnameLen,
        entryName (memcpy (memcpy entry 0 ((s.dev.data (slot s sin.din i)).from 0) diskEntrySize) (4 + maxFnameLen) zeroBytes 1) k =
          entryName (s.dev.data (slot s sin.din i)) k := by
      intro k member
      have below := List.mem_range.mp member
      simp only [entryName, Bytes.from]
      rw [memcpy_outside _ _ _ _ _ (.inl (by omega)), memcpy_inside _ _ _ _ _ (Nat.zero_le _) (by
        simp only [diskEntrySize, dentrySize]
        omega), Nat.sub_zero, Bytes.from, Nat.zero_add]
    rw [List.map_congr_left first, last]

theorem dirent_read_spec (entry : Bytes) (i : Nat) (mounted : Mounted s) (stored : StoredDir s sin.din) (below : i < sin.din.blocks) :
    ∃ ret entry' t, Quiet s t ∧ (s.dev.results = [] → ret = 0) ∧ (ret = 0 → EntryOf s sin entry' i) ∧
      sfsDirentReadNolock s sin i entry = .ok (ret, entry', t, sin) := by
  obtain ⟨named, bound, used⟩ := stored.inUse (slot s sin.din i) (.inr ⟨i, below, rfl⟩)
  obtain ⟨ret, ino, t, quiet, success, block, load⟩ := bmap_load_mapped s sin i mounted stored.bounded stored.inUse below
  have first : check (decide (sin.din.type = typeDir ∧ i < sin.din.blocks)) Fault.assertFailed = .ok () := by
    rw [decide_eq_true ⟨stored.type, below⟩, check_true]
  by_cases failed : ret = 0
  · subst failed
    obtain rfl := block rfl
    have mountedT := quiet_mounted s t quiet mounted
    have boundT : slot s sin.din i < t.super.blocks := by
      obtain ⟨_, rfl, _⟩ := quiet
      exact bound
    have inuse : sfsBlockInuse t (slot s sin.din i) = .ok true := by
      rw [block_inuse_spec t _ mountedT named boundT]
      obtain ⟨_, rfl, _⟩ := quiet
      exact congrArg _ (congrArg not used)
    obtain ⟨ret, u, quietU, successU, read⟩ := rbuf_spec t entry diskEntrySize _ 0 mountedT named boundT (by decide) (by decide)
    have both := quiet_trans s t u quiet quietU
    by_cases unread : ret = 0
    · subst unread
      refine ⟨0, _, u, both, fun _ => rfl, fun _ => entry_of_block s sin entry _ i rfl, ?_⟩
      simp only [sfsDirentReadNolock, first, ok_bind, load, inuse, check_true, read, pure_ok, if_true, quiet_data s t quiet, ne_eq, not_true_eq_false, if_false]
    · refine ⟨ret, entry, u, both, fun clear => successU (quiet_results s t quiet clear), fun same => absurd same unread, ?_⟩
      simp only [sfsDirentReadNolock, first, ok_bind, load, inuse, check_true, read, pure_ok, if_neg unread, if_pos unread, ne_eq, not_true_eq_false, if_false]
  · refine ⟨ret, entry, t, quiet, success, fun same => absurd same failed, ?_⟩
    simp only [sfsDirentReadNolock, first, ok_bind, load, pure_ok, ne_eq, if_pos failed]

theorem entry_quiet (t : SfsFs) (quiet : Quiet s t) (entry : Bytes) (i : Nat) (later : EntryOf t sin entry i) : EntryOf s sin entry i :=
  ⟨slot_ino_quiet s t quiet sin.din ▸ later.ino, slot_name_quiet s t quiet sin.din ▸ later.name⟩

theorem used_quiet (t : SfsFs) (quiet : Quiet s t) (din : SfsDiskInode) (i rounds : Nat) : usedSlots t din i rounds = usedSlots s din i rounds := by
  rw [usedSlots, slot_ino_quiet s t quiet, ← usedSlots]

-- The scan from slot i on finds the used slot that slot counts to.
theorem getdirentry_loop_spec (slot rounds : Nat) (entry : Bytes) (i : Nat) (mounted : Mounted s) (stored : StoredDir s sin.din)
    (last : i + rounds = sin.din.blocks) :
    ∃ ret entry' t, Quiet s t ∧ (ret = 0 → ∃ j, (usedSlots s sin.din i rounds)[slot]? = some j ∧ EntryOf s sin entry' j) ∧
      (s.dev.results = [] → ret = if slot < (usedSlots s sin.din i rounds).length then 0 else eNoEnt) ∧
      getdirentryLoop s sin slot entry i rounds = .ok (ret, entry', t, sin) := by
  induction rounds generalizing s slot entry i with
  | zero => exact ⟨eNoEnt, entry, s, quiet_refl s, fun same => absurd same (by decide), fun _ => (if_neg (Nat.not_lt_zero slot)).symm, rfl⟩
  | succ rounds ih =>
      obtain ⟨ret, entry', t, quiet, success, found, read⟩ := dirent_read_spec s sin entry i mounted stored (by omega)
      by_cases failed : ret = 0
      · subst failed
        have holds := found rfl
        -- The rest of the scan, from the state after this read.
        have onward : ∀ slot : Nat, ∃ ret entry'' u, Quiet s u ∧
            (ret = 0 → ∃ j, (usedSlots s sin.din (i + 1) rounds)[slot]? = some j ∧ EntryOf s sin entry'' j) ∧
            (s.dev.results = [] → ret = if slot < (usedSlots s sin.din (i + 1) rounds).length then 0 else eNoEnt) ∧
            getdirentryLoop t sin slot entry' (i + 1) rounds = .ok (ret, entry'', u, sin) := by
          intro slot
          obtain ⟨ret, entry'', u, quietU, named, code, later⟩ :=
            ih t slot entry' (i + 1) (quiet_mounted s t quiet mounted) (stored_quiet s t quiet sin.din stored) (by omega)
          rw [used_quiet s t quiet] at named code
          refine ⟨ret, entry'', u, quiet_trans s t u quiet quietU, fun zero => ?_, fun clear => code (quiet_results s t quiet clear), later⟩
          obtain ⟨j, here, entryOf⟩ := named zero
          exact ⟨j, here, entry_quiet s sin t quiet entry'' j entryOf⟩
        by_cases used : slotIno s sin.din i = 0
        · have skips : usedSlots s sin.din i (rounds + 1) = usedSlots s sin.din (i + 1) rounds := by
            rw [usedSlots, List.range'_succ, List.filter_cons_of_neg (by simpa using used), ← usedSlots]
          obtain ⟨ret, entry'', u, quietU, named, code, later⟩ := onward slot
          rw [skips]
          refine ⟨ret, entry'', u, quietU, named, code, ?_⟩
          simp only [getdirentryLoop, read, ok_bind, ne_eq, not_true_eq_false, if_false, holds.ino, used, later]
        · have takes : usedSlots s sin.din i (rounds + 1) = i :: usedSlots s sin.din (i + 1) rounds := by
            rw [usedSlots, List.range'_succ, List.filter_cons_of_pos (by simpa using used), ← usedSlots]
          rw [takes]
          cases slot with
          | zero =>
              refine ⟨0, entry', t, quiet, fun _ => ⟨i, rfl, holds⟩, fun _ => (if_pos (Nat.zero_lt_succ _)).symm, ?_⟩
              simp only [getdirentryLoop, read, ok_bind, ne_eq, not_true_eq_false, if_false, holds.ino, if_pos used, Nat.cast_zero, if_true, pure_ok]
          | succ slot =>
              obtain ⟨ret, entry'', u, quietU, named, code, later⟩ := onward slot
              refine ⟨ret, entry'', u, quietU, named, fun clear => ?_, ?_⟩
              · rw [code clear, List.length_cons]
                simp only [Nat.add_lt_add_iff_right]
              · have counts : ¬ ((slot + 1 : Nat) : Int) = 0 := by omega
                have less : ((slot + 1 : Nat) : Int) - 1 = slot := by omega
                simp only [getdirentryLoop, read, ok_bind, ne_eq, not_true_eq_false, if_false, holds.ino, if_pos used, if_neg counts, less, later]
      · refine ⟨ret, entry', t, quiet, fun same => absurd same failed, fun clear => absurd (success clear) failed, ?_⟩
        simp only [getdirentryLoop, read, ok_bind, ne_eq, if_pos failed, pure_ok]

end Reads

end Ucore.Sfs
