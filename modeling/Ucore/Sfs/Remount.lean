import Ucore.Sfs.DirtyFlags
import Ucore.Sfs.FreshVolume

set_option autoImplicit false

namespace Ucore.Sfs

open Ucore.Lib

variable {n : Nat}

-- Mounting the device again, with transfers that succeed, gives what was in
-- memory.
structure Volume.Remounts (v : Volume n) (sfs : SfsFs) : Prop where
  mount : ∃ dev, sfsDoMount { v.sfs.dev with results := [] } = .ok (0, dev, some sfs)
  super : sfs.super = v.sfs.super
  nbits : sfs.freemap.nbits = v.sfs.freemap.nbits
  nwords : sfs.freemap.nwords = v.sfs.freemap.nwords
  words : ∀ w, w < v.sfs.freemap.nwords → sfs.freemap.map w = v.sfs.freemap.map w
  superDirty : sfs.superDirty = false
  inodes : ∀ file, ∃ s, sfsLoadInode sfs (v.files file).ino = .ok (0, some ⟨(v.files file).din, (v.files file).ino, false⟩, s)

theorem init_read_spec (dev : Device) (blkno : Nat) (buf : Bytes) (noFault : dev.results = []) (inside : blkno < dev.dBlocks)
    (small : blkno < 2 ^ 20) : sfsInitRead dev blkno buf = (0, dev.data blkno, dev) := by
  have offset : blkno * blkSize % 2 ^ 32 = blkno * blkSize := by
    simp only [blkSize]
    omega
  have aligned : blkno * blkSize % blkSize = 0 := Nat.mul_mod_left blkno blkSize
  have place : blkno * blkSize / blkSize = blkno := Nat.mul_div_cancel blkno (by decide)
  have bound : ¬ dev.dBlocks < blkno + 1 := by omega
  have good : ¬ (blkno * blkSize % blkSize ≠ 0 ∨ dev.dBlocks < blkno + 1) := by simp [aligned, bound]
  rw [sfsInitRead, offset, dopIo]
  simp only [place, if_neg good, noFault, Bool.false_eq_true, if_false]

theorem init_freemap_spec (dev : Device) (noFault : dev.results = []) (nblks : Nat) (bytes : Bytes) (data blkno : Nat)
    (inside : blkno + nblks ≤ dev.dBlocks) (small : blkno + nblks ≤ 2 ^ 20) :
    ∃ read, sfsInitFreemap dev bytes data blkno nblks = (0, read, dev) ∧ (∀ j, j < data → read j = bytes j) ∧
      ∀ k, k < nblks → ∀ j, j < 4096 → read (data + k * 4096 + j) = dev.data (blkno + k) j := by
  induction nblks generalizing bytes data blkno with
  | zero => exact ⟨bytes, rfl, fun _ _ => rfl, fun k below => absurd below (Nat.not_lt_zero k)⟩
  | succ nblks ih =>
      have first := init_read_spec dev blkno (bytes.from data) noFault (by omega) (by omega)
      obtain ⟨read, rest, before, blocks⟩ := ih (memcpy bytes data (dev.data blkno) blkSize) (data + blkSize) (blkno + 1)
        (by omega) (by omega)
      have size : blkSize = 4096 := rfl
      refine ⟨read, by simp [sfsInitFreemap, first, rest], fun j below => ?_, fun k below j inBlock => ?_⟩
      · rw [before j (by omega), memcpy_outside _ _ _ _ _ (by omega)]
      · cases k with
        | zero =>
            rw [before _ (by omega), memcpy_inside _ _ _ _ _ (by omega) (by omega), Nat.add_zero]
            congr 1
            omega
        | succ k =>
            have later := blocks k (by omega) j inBlock
            rw [show data + (k + 1) * 4096 + j = data + blkSize + k * 4096 + j by omega, later,
              show blkno + 1 + k = blkno + (k + 1) by omega]

theorem count_unused_spec (b : Bitmap) (rounds i : Nat) (inside : i + rounds ≤ b.nbits) :
    countUnused b i (b.count i) rounds = .ok (b.count (i + rounds)) := by
  induction rounds generalizing i with
  | zero => rfl
  | succ rounds ih =>
      have next : (if b.bit i then b.count i + 1 else b.count i) = b.count (i + 1) := by
        rw [Bitmap.count]
        cases b.bit i <;> simp
      have rest := ih (i + 1) (by omega)
      rw [countUnused, bitmap_test_spec b i (by omega)]
      simp only [ok_bind, next, rest]
      rw [Nat.add_right_comm, Nat.add_assoc]

theorem decode_inode_congr (left right : Bytes) (same : ∀ j, j < 64 → left j = right j) : decodeInode left = decodeInode right := by
  have field : ∀ offset k, offset + k ≤ 64 → getLe left offset k = getLe right offset k := fun offset k inside =>
    get_le_congr left right offset offset k fun j below => same _ (by omega)
  have direct : (fun i : Fin 12 => getLe left (12 + 4 * i) 4) = fun i : Fin 12 => getLe right (12 + 4 * i) 4 :=
    funext fun i => field _ _ (by omega)
  simp only [decodeInode, field 0 4 (by omega), field 4 2 (by omega), field 6 2 (by omega), field 8 4 (by omega),
    field 60 4 (by omega), direct]

theorem load_inode_spec (s : SfsFs) (ino : Nat) (mounted : Mounted s) (noFault : s.dev.results = []) (named : ino ≠ 0)
    (bound : ino < s.super.blocks) (used : s.freemap.bit ino = false) (links : (decodeInode (s.dev.data ino)).nlinks ≠ 0)
    (type : (decodeInode (s.dev.data ino)).type = typeFile) :
    ∃ t, sfsLoadInode s ino = .ok (0, some ⟨decodeInode (s.dev.data ino), ino, false⟩, t) := by
  obtain ⟨ret, t, _, success, read⟩ := rbuf_spec s zeroBytes diskInodeSize ino 0 mounted named bound (by decide) (by decide)
  have zero := success noFault
  have record : decodeInode (memcpy zeroBytes 0 ((s.dev.data ino).from 0) diskInodeSize) = decodeInode (s.dev.data ino) := by
    refine decode_inode_congr _ _ fun j inside => ?_
    rw [memcpy_inside _ _ _ _ _ (Nat.zero_le j) (by simp only [diskInodeSize]; omega), Bytes.from, Nat.sub_zero, Nat.zero_add]
  refine ⟨t, ?_⟩
  rw [sfsLoadInode, block_inuse_spec s ino mounted named bound, used, read]
  simp [zero, record, links, type]

theorem clean_remounts (v : Volume n) (reserved : Nat → Prop) (laid : v.Laid reserved) (sound : v.FlagsSound)
    (inodesClean : ∀ file, (v.files file).dirty = false) (superClean : v.sfs.superDirty = false) : ∃ sfs, v.Remounts sfs := by
  have mounted := laid.wellFormed.mounted
  obtain ⟨fits, small, nbits, words, past, superUsed, unused⟩ := mounted
  have some := (laid.kept 0 laid.wellFormed.superBlock).1
  have freemapBlocks : sfsFreemapBlocks v.sfs.super = (v.sfs.super.blocks + 32768 - 1) / 32768 := rfl
  have bits : sfsFreemapBits v.sfs.super = v.sfs.freemap.nbits := by
    rw [nbits, sfsFreemapBits, sfsFreemapBlocks]
    refine Nat.mod_eq_of_lt ?_
    simp only [roundUpDiv, blkBits, blkSize]
    omega
  have last := (laid.kept _ (laid.freemapBlocks (sfsFreemapBlocks v.sfs.super - 1) (by omega))).1
  have superCopy : decodeSuper (v.sfs.dev.data blknSuper) = v.sfs.super := by
    by_contra differs
    have dirty := sound.super differs
    rw [superClean] at dirty
    cases dirty
  have header : (⟨v.sfs.super.magic, v.sfs.super.blocks, v.sfs.super.unusedBlocks,
      Function.update v.sfs.super.info ⟨maxInfoLen, by decide⟩ 0⟩ : SfsSuper) = v.sfs.super := by
    have same : Function.update v.sfs.super.info ⟨maxInfoLen, by decide⟩ 0 = v.sfs.super.info := by
      rw [← laid.info]
      exact Function.update_eq_self _ _
    rw [same]
  rw [blkBits, blkSize] at nbits
  have nwords : v.sfs.freemap.nwords = sfsFreemapBlocks v.sfs.super * 1024 := by omega
  obtain ⟨b, created, bBits, bWords, _⟩ := bitmap_create_spec v.sfs.freemap.nbits (by omega) (by omega)
  have bWords' : b.nwords = v.sfs.freemap.nwords := by
    rw [bWords, roundUpDiv]
    omega
  obtain ⟨read, loaded, _, content⟩ := init_freemap_spec { v.sfs.dev with results := [] } rfl (sfsFreemapBlocks v.sfs.super)
    (bitmapData b) 0 blknFreemap (by simp only [blknFreemap] at last ⊢; omega) (by simp only [blknFreemap] at last ⊢; omega)
  have map : ∀ w, w < v.sfs.freemap.nwords → (bitmapOfData b read).map w = v.sfs.freemap.map w := by
    intro w inside
    have copy : diskWord v.sfs.dev.data w = v.sfs.freemap.map w := by
      by_contra differs
      have dirty := sound.freemap w inside differs
      rw [superClean] at dirty
      cases dirty
    rw [← copy]
    simp only [bitmapOfData, diskWord]
    congr 1
    refine get_le_congr _ _ _ _ 4 fun k below => ?_
    rw [← content (w / 1024) (by omega) (w % 1024 * 4 + k) (by omega)]
    congr 1
    omega
  have sameBits : ∀ j, j < v.sfs.freemap.nbits → (bitmapOfData b read).bit j = v.sfs.freemap.bit j := by
    intro j inside
    simp only [Bitmap.bit, wordBits]
    rw [map (j / 32) (by omega)]
  have sameCount := count_congr (bitmapOfData b read) v.sfs.freemap v.sfs.freemap.nbits sameBits
  have counted := count_unused_spec (bitmapOfData b read) v.sfs.freemap.nbits 0 (by simp only [bitmapOfData]; omega)
  rw [Nat.zero_add, sameCount, ← unused, Bitmap.count] at counted
  have first : sfsInitRead { v.sfs.dev with results := [] } blknSuper zeroBytes =
      (0, v.sfs.dev.data blknSuper, { v.sfs.dev with results := [] }) :=
    init_read_spec { v.sfs.dev with results := [] } blknSuper zeroBytes rfl (by simp only [blknSuper]; omega) (by decide)
  let sfs : SfsFs := ⟨v.sfs.super, { v.sfs.dev with results := [] }, bitmapOfData b read, false⟩
  have mountedAgain : Mounted sfs := by
    refine ⟨fits, small, ?_, ?_, fun j inside outside => ?_, ?_, ?_⟩
    · exact bBits.trans (by rw [nbits, blkBits, blkSize])
    · simp only [sfs, bitmapOfData]
      omega
    · simp only [sfs, bitmapOfData] at inside outside
      exact (sameBits j (by omega)).trans (past j (by omega) outside)
    · exact (sameBits 0 (by omega)).trans superUsed
    · simp only [sfs]
      rw [show (bitmapOfData b read).nbits = v.sfs.freemap.nbits from bBits, sameCount, unused]
  refine ⟨sfs, ⟨{ v.sfs.dev with results := [] }, ?_⟩, rfl, bBits, bWords', map, rfl, fun file => ?_⟩
  · have accepted : ¬ (v.sfs.super.magic ≠ sfsMagic ∨ v.sfs.dev.dBlocks < v.sfs.super.blocks) := by
      rw [laid.magic]
      simp only [ne_eq, not_true_eq_false, false_or]
      omega
    have wide : b.nwords * 4 = sfsFreemapBlocks v.sfs.super * blkSize := by
      rw [bWords', nwords, blkSize]
      omega
    rw [sfsDoMount, first]
    simp only [superCopy, if_neg accepted, header, bits, created, loaded, counted, wide, ok_bind, pure_ok, check_true, decide_true,
      ne_eq, not_true_eq_false, if_false, sfs]
  · obtain ⟨metadata, named, _⟩ := laid.inodeBlocks file
    obtain ⟨bound, used⟩ := laid.kept _ metadata
    have copy : decodeInode (v.sfs.dev.data (v.files file).ino) = (v.files file).din := by
      by_contra differs
      have dirty := sound.inodes file differs
      rw [inodesClean file] at dirty
      cases dirty
    have usedAgain : sfs.freemap.bit (v.files file).ino = false := by
      exact (sameBits _ (by omega)).trans used
    obtain ⟨t, loadedInode⟩ := load_inode_spec sfs (v.files file).ino mountedAgain rfl named bound usedAgain
      (by rw [show sfs.dev.data = v.sfs.dev.data from rfl, copy]; exact (laid.nlinks file).1)
      (by rw [show sfs.dev.data = v.sfs.dev.data from rfl, copy]; exact (laid.wellFormed.maps file).type)
    refine ⟨t, ?_⟩
    rw [loadedInode, show sfs.dev.data = v.sfs.dev.data from rfl, copy]

-- The flags of a state, and what a sfs_sync from it leaves on the device. When
-- the device's writes succeed the sync returns 0 with all inodes clean.
structure Volume.DiskSound (v : Volume n) : Prop where
  flags : v.FlagsSound
  sync : ∃ ret next, v.sync = .ok (ret, next) ∧ next.sfs.super = v.sfs.super ∧ next.sfs.freemap = v.sfs.freemap ∧
    (∀ file, (next.files file).din = (v.files file).din) ∧
    (v.sfs.dev.results = [] → ret = 0 ∧ ∀ file, (next.files file).dirty = false) ∧
    (ret = 0 → (∀ file, (next.files file).dirty = false) → ∃ sfs, next.Remounts sfs)

def KeepsFlag (v : Volume n) : FsEvent n → Prop
  | .call file call => ¬ MissesFlag v.sfs (v.files file) call
  | _ => True

instance (v : Volume n) (event : FsEvent n) : Decidable (KeepsFlag v event) :=
  match event with
  | .call file call => inferInstanceAs (Decidable (¬ MissesFlag v.sfs (v.files file) call))
  | .fsync _ => inferInstanceAs (Decidable True)
  | .sync => inferInstanceAs (Decidable True)

theorem flags_disk_sound (v : Volume n) (reserved : Nat → Prop) (laid : v.Laid reserved) (sound : v.FlagsSound) : v.DiskSound := by
  obtain ⟨ret, next, ran, stored, flags, super, cleaned⟩ := sync_flags v reserved laid sound
  exact ⟨sound, ret, next, ran, stored.super, stored.freemap, stored.din, cleaned, fun zero clean =>
    clean_remounts next reserved (stored_laid v next reserved laid stored) flags clean (super zero)⟩

theorem fs_step_flags (v next : Volume n) (reserved : Nat → Prop) (event : FsEvent n) (laid : v.Laid reserved) (sound : v.FlagsSound)
    (kept : KeepsFlag v event) (stepped : v.fsStep event = some next) : next.Laid reserved ∧ next.FlagsSound := by
  cases event with
  | call file call => exact call_flags v next reserved file call laid sound kept stepped
  | fsync file =>
      obtain ⟨ret, w, ran, stored, flags, _⟩ := fsync_flags v reserved file laid sound
      obtain rfl : w = next := by simpa [Volume.fsStep, ran, Except.toOption] using stepped
      exact ⟨stored_laid v w reserved laid stored, flags⟩
  | sync =>
      obtain ⟨ret, w, ran, stored, flags, _⟩ := sync_flags v reserved laid sound
      obtain rfl : w = next := by simpa [Volume.fsStep, ran, Except.toOption] using stepped
      exact ⟨stored_laid v w reserved laid stored, flags⟩

theorem dirty_flags_sound (v : Volume n) (reserved : Nat → Prop) (events : List (FsEvent n)) (laid : v.Laid reserved)
    (sound : v.FlagsSound) (kept : Throughout Volume.fsStep KeepsFlag v events) : Always Volume.fsStep Volume.DiskSound v events :=
  always_invariant Volume.fsStep KeepsFlag (fun v => v.Laid reserved ∧ v.FlagsSound) Volume.DiskSound
    (fun v event next ⟨laid, sound⟩ kept stepped => fs_step_flags v next reserved event laid sound kept stepped)
    (fun v ⟨laid, sound⟩ => flags_disk_sound v reserved laid sound) events v ⟨laid, sound⟩ kept

theorem fresh_laid (n : Nat) (few : n < 29) : (freshVolume n).Laid (freshReserved n) := by
  have image := fresh_image n few
  have one : sfsFreemapBlocks (freshVolume n).sfs.super = 1 := by
    simp [freshVolume, freshSuper, sfsFreemapBlocks, roundUpDiv, blkBits, blkSize]
  refine ⟨image.wellFormed, image.kept, fun k below => ?_, fun file => ⟨?_, ?_, ?_⟩, fun f g same => ?_, fun file => ?_, fun file => ?_,
    rfl, rfl⟩
  · simp only [freshReserved, blknFreemap]
    omega
  · simp only [freshReserved, freshVolume, emptyFile]
    omega
  · simp only [freshVolume, emptyFile, blknSuper]
    omega
  · rw [one]
    simp only [freshVolume, emptyFile, blknFreemap]
    omega
  · simp only [freshVolume, emptyFile] at same
    exact Fin.ext (by omega)
  · exact ⟨by simp [freshVolume, emptyFile], by simp [freshVolume, emptyFile]⟩
  · simp [freshVolume, emptyFile]

theorem fresh_flags (n : Nat) (few : n < 29) : (freshVolume n).FlagsSound := by
  have laid := fresh_laid n few
  refine ⟨fun file differs => ?_, fun differs => ?_, fun w inside differs => ?_⟩
  · refine absurd ?_ differs
    have record : (freshVolume n).sfs.dev.data ((freshVolume n).files file).ino =
        memcpy zeroBytes 0 (encodeInode ((freshVolume n).files file).din) diskInodeSize := by
      have high : ¬ 3 + (file : Nat) < 3 := by omega
      have named : 3 + (file : Nat) ≠ 0 := by omega
      have apart : 3 + (file : Nat) ≠ 2 := by omega
      simp only [freshVolume, emptyFile, freshData, blknSuper, blknFreemap, if_neg high, if_neg named, if_neg apart]
    rw [record]
    exact decode_encode_inode _ _ (laid_inode_fits _ _ laid file)
  · refine absurd ?_ differs
    exact decode_encode_super _ _ (laid_super_fits _ _ laid)
  · refine absurd ?_ differs
    have small : w / 1024 = 0 := by
      simp only [freshVolume, freshFreemap] at inside
      omega
    have word : w % 1024 * 4 = 4 * w := by omega
    have block : (freshVolume n).sfs.dev.data blknFreemap = bitmapData (freshVolume n).sfs.freemap := rfl
    rw [diskWord, small, Nat.add_zero, word, block, bitmap_data_word, BitVec.ofNat_toNat, BitVec.setWidth_eq]

def flagEvents : List (FsEvent 2) :=
  [.call 0 (.truncfile 49152), .sync, .call 0 (.io zeroBytes 49152 10 true), .fsync 0, .call 1 (.io zeroBytes 0 9000 true),
    .call 0 (.io zeroBytes 100 5000 true), .sync]

theorem dirty_flags_sound_files : Always Volume.fsStep Volume.DiskSound (freshVolume 2) flagEvents :=
  dirty_flags_sound (freshVolume 2) (freshReserved 2) flagEvents (fresh_laid 2 (by decide)) (fresh_flags 2 (by decide))
    (by decide +kernel)

-- One byte written behind 13 blocks that are on disk.
theorem write_misses_flag : ∃ final, run Volume.fsStep (freshVolume 1)
      [.call 0 (.truncfile 53248), .fsync 0, .call 0 (.io zeroBytes 53248 1 true)] = some final ∧
    decodeInode (final.sfs.dev.data (final.files 0).ino) ≠ (final.files 0).din ∧ (final.files 0).dirty = false := by
  cases ran : run Volume.fsStep (freshVolume 1) [.call 0 (.truncfile 53248), .fsync 0, .call 0 (.io zeroBytes 53248 1 true)] with
  | none =>
      have returns : (run Volume.fsStep (freshVolume 1)
        [.call 0 (.truncfile 53248), .fsync 0, .call 0 (.io zeroBytes 53248 1 true)]).isSome := by decide +kernel
      simp [ran] at returns
  | some final =>
      have facts : ∀ reached, run Volume.fsStep (freshVolume 1)
            [.call 0 (.truncfile 53248), .fsync 0, .call 0 (.io zeroBytes 53248 1 true)] = some reached →
          (decodeInode (reached.sfs.dev.data (reached.files 0).ino)).blocks ≠ (reached.files 0).din.blocks ∧
            (reached.files 0).dirty = false := by
        decide +kernel
      obtain ⟨differ, clean⟩ := facts final ran
      exact ⟨final, rfl, fun same => differ (congrArg SfsDiskInode.blocks same), clean⟩

end Ucore.Sfs
