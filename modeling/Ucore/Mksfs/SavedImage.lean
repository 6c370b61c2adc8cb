import Ucore.Mksfs.MountCheck
import Ucore.Mksfs.TreeRecorded

set_option autoImplicit false

namespace Ucore.Mksfs

open Ucore.Lib
open Ucore.Sfs (blkSize blkBits blknSuper blknRoot blknFreemap typeDir typeFile typeLink roundUpDiv superSize encodeSuper decodeInode decode_inode_congr
  decode_encode_inode diskInodeSize InodeFits)

-- What close_sfs leaves in the blocks of a build: the inodes and the indirect
-- blocks as they are in memory, entries and data as they were written.
structure Saved (fs : MksfsFs) (disk : Nat → Bytes) : Prop where
  inode : ∀ ino ∈ fs.inodeList, disk ino = memcpy zeroBytes 0 (inodeBytes (fs.inodeAt ino)) inodeSize
  indirect : ∀ cb ∈ fs.blockList, disk cb = memcpy zeroBytes 0 (fs.cacheAt cb) blkSize
  entry : ∀ b, (b, .entry) ∈ fs.allocs → disk b = fs.disk b
  data : ∀ b, (b, .data) ∈ fs.allocs → disk b = fs.disk b

section Flush

variable {image : Nat → Bytes} {fs next : MksfsFs}

theorem hash_small (val : Nat) : hash32 val < hashListSize := by
  simp only [hash32, hashListSize]
  omega

theorem flushes_inode (fs : MksfsFs) (ino : Nat) (listed : ino ∈ fs.inodeList) : (ino, inodeBytes (fs.inodeAt ino), inodeSize) ∈ flushes fs := by
  refine List.mem_flatMap.mpr ⟨hash32 (fs.inodeAt ino).real, List.mem_range.mpr (hash_small _), List.mem_append_right _ ?_⟩
  exact List.mem_map.mpr ⟨ino, List.mem_filter.mpr ⟨listed, decide_eq_true rfl⟩, rfl⟩

theorem flushes_cache (fs : MksfsFs) (cb : Nat) (cached : cb ∈ fs.blockList) : (cb, fs.cacheAt cb, blkSize) ∈ flushes fs := by
  refine List.mem_flatMap.mpr ⟨hash32 0, List.mem_range.mpr (hash_small 0), List.mem_append_left _ ?_⟩
  exact List.mem_map.mpr ⟨cb, List.mem_filter.mpr ⟨cached, decide_eq_true rfl⟩, rfl⟩

theorem flushes_write (fs : MksfsFs) (write : Nat × Bytes × Nat) (member : write ∈ flushes fs) :
    (write.1 ∈ fs.blockList ∧ write.2 = (fs.cacheAt write.1, blkSize)) ∨
      (write.1 ∈ fs.inodeList ∧ write.2 = (inodeBytes (fs.inodeAt write.1), inodeSize)) := by
  obtain ⟨i, _, inList⟩ := List.mem_flatMap.mp member
  rcases List.mem_append.mp inList with fromBlocks | fromInodes
  · obtain ⟨cb, kept, same⟩ := List.mem_map.mp fromBlocks
    subst same
    exact .inl ⟨List.mem_of_mem_filter kept, rfl⟩
  · obtain ⟨ino, kept, same⟩ := List.mem_map.mp fromInodes
    subst same
    exact .inr ⟨List.mem_of_mem_filter kept, rfl⟩

-- All writes to one block carry the same bytes.
theorem flush_all_at (writes : List (Nat × Bytes × Nat)) (done : flushAll fs writes = .ok next) (b : Nat) (block : Bytes)
    (member : b ∈ writes.map Prod.fst) (same : ∀ write ∈ writes, write.1 = b → memcpy zeroBytes 0 write.2.1 write.2.2 = block) :
    next.disk b = block := by
  induction writes generalizing fs with
  | nil => cases member
  | cons write rest ih =>
      obtain ⟨ino, data, len⟩ := write
      obtain ⟨written, wrote, done⟩ := bind_ok done
      by_cases later : b ∈ rest.map Prod.fst
      · exact ih done later fun write inside => same write (List.mem_cons_of_mem _ inside)
      · obtain rfl := write_block_disk wrote
        obtain ⟨disk, rfl, others⟩ := flush_all_disk rest done
        have here : b = ino := (List.mem_cons.mp member).resolve_right later
        subst here
        have block' := same (b, data, len) List.mem_cons_self rfl
        have last := others b later
        simp only [Function.update_self, block'] at last
        exact last

theorem inode_not_cached (built : Built image fs) (ino : Nat) (listed : ino ∈ fs.inodeList) (cached : ino ∈ fs.blockList) : False := by
  have given := built.cached ino cached
  have positive := (given_small built ino (List.mem_map_of_mem given)).1
  rcases built.inodes ino listed with root | inode
  · simp only [root, blknRoot] at positive
    omega
  · have same := given_once built ino .indirect .inode given inode
    cases same

-- Neither an inode nor an indirect block.
theorem plain_not_flushed (built : Built image fs) (b : Nat) (use : AllocUse) (given : (b, use) ∈ fs.allocs) (plain : use = .entry ∨ use = .data) :
    b ∉ (flushes fs).map Prod.fst := by
  intro flushed
  rcases flushes_from fs b flushed with cached | inode
  · have same := given_once built b use .indirect given (built.cached b cached)
    subst same
    exact plain.elim (fun never => by cases never) fun never => by cases never
  · rcases built.inodes b inode with root | other
    · have positive := (given_small built b (List.mem_map_of_mem given)).1
      simp only [root, blknRoot] at positive
      omega
    · have same := given_once built b use .inode given other
      subst same
      exact plain.elim (fun never => by cases never) fun never => by cases never

theorem close_sfs_saved (built : Built image fs) (done : closeSfs fs = .ok next) : next = { fs with disk := next.disk } ∧ Saved fs next.disk := by
  obtain ⟨mapped, wroteMap, done⟩ := bind_ok done
  obtain ⟨topped, wroteSuper, done⟩ := bind_ok done
  obtain ⟨mapDisk, rfl, _, others⟩ := write_freemap_disk _ 0 blknFreemap wroteMap
  obtain rfl := write_block_disk wroteSuper
  replace done : flushAll _ (flushes fs) = .ok next := done
  obtain ⟨disk, rfl, kept⟩ := flush_all_disk (flushes fs) done
  replace kept : ∀ b, b ∉ (flushes fs).map Prod.fst →
      disk b = Function.update mapDisk blknSuper (memcpy zeroBytes 0 (encodeSuper fs.super) superSize) b := kept
  have still : ∀ b use, (b, use) ∈ fs.allocs → use = .entry ∨ use = .data → disk b = fs.disk b := by
    intro b use given plain
    have range := (built.allocs b).mp (List.mem_map_of_mem given)
    have positive := (given_small built b (List.mem_map_of_mem given)).1
    have notSuper : b ≠ blknSuper := by
      simp only [blknSuper]
      omega
    rw [kept b (plain_not_flushed built b use given plain), Function.update_of_ne notSuper, others b (.inr range.1)]
  refine ⟨rfl, fun ino listed => ?_, fun cb cached => ?_, fun b given => still b .entry given (.inl rfl),
    fun b given => still b .data given (.inr rfl)⟩
  · refine flush_all_at (flushes fs) done ino _ (List.mem_map_of_mem (f := Prod.fst) (flushes_inode fs ino listed)) fun write member same => ?_
    subst same
    rcases flushes_write fs write member with cached | inode
    · exact (inode_not_cached built _ listed cached.1).elim
    · rw [inode.2]
  · refine flush_all_at (flushes fs) done cb _ (List.mem_map_of_mem (f := Prod.fst) (flushes_cache fs cb cached)) fun write member same => ?_
    subst same
    rcases flushes_write fs write member with block | inode
    · rw [block.2]
    · exact (inode_not_cached built _ inode.1 cached).elim

-- The kernel's record of an inode; it has no db_indirect.
theorem saved_decodes (built : Built image fs) (mapped : Mapped fs) (disk : Nat → Bytes) (saved : Saved fs disk) (ino : Nat)
    (listed : ino ∈ fs.inodeList) (type : (fs.inodeAt ino).din.type < 2 ^ 16) (nlinks : (fs.inodeAt ino).din.nlinks < 2 ^ 16) : decodeInode (disk ino) = (fs.inodeAt ino).din := by
  have own := mapped.each ino listed
  have bounded := own.bounded
  have blocks := own.blocks
  have indirect : (fs.inodeAt ino).din.indirect < 2 ^ 32 := by
    by_cases few : (fs.inodeAt ino).nblks ≤ 12
    · rw [(own.few few).1]
      exact Nat.two_pow_pos 32
    · exact (given_small built _ (List.mem_map_of_mem (built.cached _ (own.many (by omega)).2))).2.2
  have direct : ∀ k, (fs.inodeAt ino).din.direct k < 2 ^ 32 := by
    intro k
    rcases own.direct k with none | given
    · rw [none]
      exact Nat.two_pow_pos 32
    · exact (given_small built _ given).2.2
  rw [← decode_encode_inode (fs.inodeAt ino).din zeroBytes ⟨own.sized, type, nlinks, by omega, direct, indirect⟩, saved.inode ino listed]
  refine decode_inode_congr _ _ fun j inside => ?_
  rw [memcpy_inside _ _ _ _ _ (Nat.zero_le _) (by simp only [inodeSize]; omega),
    memcpy_inside _ _ _ _ _ (Nat.zero_le _) (by simp only [diskInodeSize]; omega), inodeBytes, memcpy_outside _ _ _ _ _ (.inl (by omega))]

end Flush

section Start

variable {image : Nat → Bytes} {host : Nat → Option HostFile}

theorem alloc_root {fs next : MksfsFs} (root : Nat) (empty : fs.inodeList = []) (done : allocCacheInode fs 0 blknRoot typeDir = .ok (root, next)) :
    next.inodeList = [blknRoot] ∧ next.inodeAt blknRoot = ⟨0, ⟨0, typeDir, 0, 0, fun _ => 0, 0⟩, 0, 0, none, none⟩ := by
  obtain ⟨⟨number, mid⟩, taken, shape⟩ := bind_ok done
  have numbered : blknRoot ≠ 0 := by decide
  rw [if_pos numbered, Except.ok.injEq, Prod.mk.injEq] at taken
  simp only [pure_ok, Except.ok.injEq, Prod.mk.injEq] at shape
  obtain ⟨rfl, rfl⟩ := taken
  obtain ⟨rfl, rfl⟩ := shape
  exact ⟨congrArg (blknRoot :: ·) empty, by simp only [Function.update_self]⟩

theorem create_sfs_root (stSize : Nat) (garbage : Bytes) {fs : MksfsFs} (noFile : host 0 = none) (create : createSfs stSize garbage image = .ok fs) :
    Recorded image host fs ∧ fs.inodeList = [blknRoot] ∧ fs.inodeAt blknRoot = ⟨0, ⟨0, typeDir, 0, 0, fun _ => 0, 0⟩, 0, 0, none, none⟩ := by
  have built := create_sfs_built stSize garbage create
  have made : fs.inodeList = [blknRoot] ∧ fs.inodeAt blknRoot = ⟨0, ⟨0, typeDir, 0, 0, fun _ => 0, 0⟩, 0, 0, none, none⟩ := by
    obtain ⟨_, create⟩ := check_bind_ok create
    obtain ⟨⟨root, made⟩, alloc, done⟩ := bind_ok create
    obtain rfl := Except.ok.inj done
    exact alloc_root root rfl alloc
  obtain ⟨inodeList, inode⟩ := made
  have only : ∀ ino ∈ fs.inodeList, ino = blknRoot := fun ino listed => List.mem_singleton.mp (inodeList ▸ listed)
  refine ⟨⟨built, ⟨fun ino listed => ?_, fun a listedA b listedB _ _ _ => (only a listedA).trans (only b listedB).symm⟩,
    fun ino listed content known => ?_, fun ino listed _ => ?_, fun a listedA b listedB _ _ _ => (only a listedA).trans (only b listedB).symm, fun ino listed => ?_⟩, inodeList, inode⟩
  · obtain rfl := only ino listed
    constructor
    all_goals rw [inode]
    · decide
    · decide
    · exact fun _ => ⟨rfl, rfl⟩
    · exact fun many => absurd many (by decide)
    · exact fun _ => .inl rfl
    · exact fun i below => absurd below (Nat.not_lt_zero i)
  · obtain rfl := only ino listed
    rw [inode, noFile] at known
    cases known
  · obtain rfl := only ino listed
    rw [inode]
    decide
  · obtain rfl := only ino listed
    rw [inode]
    decide

-- No inode of the host is named so often that its count of 16 bits wraps around.
def HostDir.FewNames (home : HostDir) : Prop := ∀ real, home.points 0 real + (if real = 0 then 2 else 0) < 2 ^ 16

-- The build when the whole tree is read.
structure Whole (image : Nat → Bytes) (host : Nat → Option HostFile) (fs : MksfsFs) (home : HostDir) : Prop where
  recorded : Recorded image host fs
  root : ShownDir fs (fun _ => False) blknRoot blknRoot home.entries.length
  shows : Shows fs (fun _ => False) home blknRoot 2
  nlinks : ∀ ino ∈ fs.inodeList, (fs.inodeAt ino).din.nlinks ≠ 0

theorem build_whole (stSize : Nat) (garbage : Bytes) (home : HostDir) (noFile : host 0 = none) (room : home.entries.length + 2 ≤ 1036)
    (fits : home.Fits) (one : home.OneHost host) (few : home.FewNames) {created dotted filled : MksfsFs}
    (create : createSfs stSize garbage image = .ok created) (dots : addDots created blknRoot blknRoot = .ok dotted)
    (opened : openDirLoop blknRoot home dotted = .ok filled) : Whole image host filled home := by
  obtain ⟨recorded, inodeList, inode⟩ := create_sfs_root stSize garbage noFile create
  have listed : blknRoot ∈ created.inodeList := by
    rw [inodeList]
    exact List.mem_singleton_self _
  have type : (created.inodeAt blknRoot).din.type = typeDir := by rw [inode]
  have real : (created.inodeAt blknRoot).real = 0 := by rw [inode]
  have both := add_dots_step recorded blknRoot blknRoot listed listed type type (by rw [inode]) dots
  have listedD : blknRoot ∈ dotted.inodeList := both.ext.inodes blknRoot listed
  have typeD : (dotted.inodeAt blknRoot).din.type = typeDir := (both.ext.type blknRoot listed).trans type
  have realD : (dotted.inodeAt blknRoot).real = 0 := (both.ext.real blknRoot listed).trans real
  have shown := open_dir_loop_shown home (fun ino => ino = blknRoot) blknRoot both.recorded (fun a same => by rw [same]; exact ⟨listedD, typeD⟩) rfl
    (by rw [both.nblks]; omega) fits one opened
  have linked := linked_trans both.linked shown.linked both.ext shown.ext shown.recorded
  have shows' := shown.shows
  rw [both.nblks] at shows'
  rw [real, realD] at linked
  refine ⟨shown.recorded, ⟨shown.ext.inodes _ listedD, fun never => never, (shown.ext.type _ listedD).trans typeD, ?_,
    entry_at_extends shown.ext blknRoot 0 [46] blknRoot listedD both.dot, entry_at_extends shown.ext blknRoot 1 [46, 46] blknRoot listedD both.dots⟩,
    shows_fewer (fun _ never => never.elim) home blknRoot 2 shows', fun ino inside => ?_⟩
  · rw [shown.nblks, both.nblks]
  by_cases link : (filled.inodeAt ino).din.type = typeLink
  · -- A link has the one name that came with it.
    have fresh : ino ∉ created.inodeList := by
      intro early
      have same := (both.ext.type ino early).symm.trans ((shown.ext.type ino (both.ext.inodes ino early)).symm.trans link)
      rw [inodeList] at early
      rw [List.mem_singleton.mp early, type] at same
      cases same
    rw [linked.links ino inside link, if_neg fresh]
    exact Nat.one_ne_zero
  · have counted := linked.counts ino inside link
    have bound := few (filled.inodeAt ino).real
    have before : linksOf created ino = 0 := by
      unfold linksOf
      by_cases early : ino ∈ created.inodeList
      · have root := early
        rw [inodeList] at root
        rw [if_pos early, List.mem_singleton.mp root, inode]
      · rw [if_neg early]
    have named : home.points 0 (filled.inodeAt ino).real + (if (filled.inodeAt ino).real = 0 then 2 else 0) ≠ 0 := by
      by_cases early : ino ∈ dotted.inodeList
      · have root := early
        rw [both.inodeList, inodeList] at root
        rw [List.mem_singleton.mp root, (shown.ext.real _ listedD).trans realD, if_pos rfl]
        exact Nat.ne_of_gt (Nat.lt_of_lt_of_le Nat.two_pos (Nat.le_add_left 2 _))
      · have entered := shown.named ino inside early link
        rw [realD] at entered
        have positive : home.points 0 (filled.inodeAt ino).real ≠ 0 := entered
        omega
    rw [counted, before]
    by_cases zero : (filled.inodeAt ino).real = 0
    · rw [if_pos zero] at bound named
      simp only [if_pos zero]
      omega
    · rw [if_neg zero] at bound named
      simp only [if_neg zero]
      omega

end Start

end Ucore.Mksfs
