import Ucore.Mksfs.Allocs
import Ucore.Sfs.Remount

set_option autoImplicit false

namespace Ucore.Mksfs

open Ucore.Lib
open Ucore.Sfs

-- The freemap as the blocks of an image have it.
def freemapOf (disk : Nat → Bytes) (ninos : Nat) : Bitmap := ⟨roundUpDiv ninos blkBits * blkBits, roundUpDiv ninos blkBits * 1024, diskWord disk⟩

def Unallocated (fs : MksfsFs) (b : Nat) : Prop := freemapEnd fs.ninos ≤ b ∧ ¬ fs.allocated b

section Bits

def wordBit (data : Nat → BitVec 32) (b : Nat) : Bool := (data (b / 32)).getLsbD (b % 32)

theorem set_bit (data : Nat → BitVec 32) (j b : Nat) :
    wordBit (Function.update data (j / 32) (data (j / 32) ||| 1#32 <<< (j % 32))) b = (wordBit data b || decide (b = j)) := by
  unfold wordBit
  by_cases word : b / 32 = j / 32
  · have set := mask_bit (j % 32) (b % 32) (Nat.mod_lt j (by decide))
    rw [mask] at set
    have same : (b % 32 = j % 32) ↔ b = j := by omega
    rw [word, Function.update_self, BitVec.getLsbD_or, set, decide_eq_decide.mpr same]
  · have apart : b ≠ j := fun same => word (by rw [same])
    rw [Function.update_of_ne word]
    simp [apart]

theorem set_bits (count : Nat) (data : Nat → BitVec 32) (j b : Nat) :
    wordBit (setBits data j count) b = (wordBit data b || decide (j ≤ b ∧ b < j + count)) := by
  induction count generalizing data j with
  | zero =>
      have none : ¬ (j ≤ b ∧ b < j + 0) := by omega
      rw [setBits, decide_eq_false none, Bool.or_false]
  | succ count ih =>
      have split : (b = j ∨ j + 1 ≤ b ∧ b < j + 1 + count) ↔ j ≤ b ∧ b < j + (count + 1) := by omega
      rw [setBits, ih, set_bit, Bool.or_assoc, ← Bool.decide_or, decide_eq_decide.mpr split]

-- One buffer has the bits of the blocks from next_ino up to the last one.
theorem freemap_buffer_bit (ninos nextIno i b : Nat) (inside : b < blkBits) :
    wordBit (freemapBuffer ninos nextIno i) b = decide (nextIno ≤ i + b ∧ i + b < ninos) := by
  have size : blkBits = 32768 := rfl
  have zero : ∀ b, wordBit (fun _ => 0) b = false := by
    intro b
    simp [wordBit]
  unfold freemapBuffer
  by_cases reached : nextIno < i + blkBits
  · have same : ((if i < nextIno then nextIno - i else 0) ≤ b ∧
        b < (if i < nextIno then nextIno - i else 0) +
          ((if ninos < i + blkBits then ninos - i else blkBits) - if i < nextIno then nextIno - i else 0)) ↔
        nextIno ≤ i + b ∧ i + b < ninos := by
      split <;> split <;> omega
    rw [if_pos reached]
    simp only [set_bits, zero, Bool.false_or, decide_eq_decide.mpr same]
  · have none : ¬ (nextIno ≤ i + b ∧ i + b < ninos) := by omega
    rw [if_neg reached, zero, decide_eq_false none]

end Bits

section Writes

theorem write_block_disk {fs next : MksfsFs} {data : Bytes} {len ino : Nat} (done : writeBlock fs data len ino = .ok next) :
    next = { fs with disk := Function.update fs.disk ino (memcpy zeroBytes 0 data len) } := by
  obtain ⟨_, _, done⟩ := bind_ok done
  exact (Except.ok.inj done).symm

def freemapBlock (fs : MksfsFs) (i : Nat) : Bytes :=
  memcpy zeroBytes 0 (bitmapData ⟨blkBits, blkSize / 4, freemapBuffer fs.ninos fs.nextIno i⟩) blkSize

theorem write_freemap_disk (rounds : Nat) {fs next : MksfsFs} (i ino : Nat) (done : writeFreemap fs i ino rounds = .ok next) :
    ∃ disk, next = { fs with disk := disk } ∧ (∀ k, k < rounds → disk (ino + k) = freemapBlock fs (i + k * blkBits)) ∧
      ∀ b, b < ino ∨ ino + rounds ≤ b → disk b = fs.disk b := by
  induction rounds generalizing fs i ino with
  | zero =>
      obtain rfl := Except.ok.inj done
      exact ⟨fs.disk, rfl, fun k below => absurd below (Nat.not_lt_zero k), fun _ _ => rfl⟩
  | succ rounds ih =>
      obtain ⟨written, wrote, done⟩ := bind_ok done
      obtain rfl := write_block_disk wrote
      obtain ⟨disk, same, later, others⟩ := ih (i + blkBits) (ino + 1) done
      refine ⟨disk, same, ?_, ?_⟩
      · intro k below
        cases k with
        | zero =>
            rw [others (ino + 0) (by omega), Nat.zero_mul]
            simp only [Nat.add_zero, Function.update_self]
            rfl
        | succ k =>
            have block := later k (by omega)
            rw [show ino + (k + 1) = ino + 1 + k by omega, block, Nat.succ_mul, show i + blkBits + k * blkBits = i + (k * blkBits + blkBits) by omega]
            rfl
      · intro b outside
        rw [others b (by omega)]
        exact Function.update_of_ne (by omega) _ _

theorem flush_all_disk (writes : List (Nat × Bytes × Nat)) {fs next : MksfsFs} (done : flushAll fs writes = .ok next) :
    ∃ disk, next = { fs with disk := disk } ∧ ∀ b, b ∉ writes.map Prod.fst → disk b = fs.disk b := by
  induction writes generalizing fs with
  | nil =>
      obtain rfl := Except.ok.inj done
      exact ⟨fs.disk, rfl, fun _ _ => rfl⟩
  | cons write rest ih =>
      obtain ⟨ino, data, len⟩ := write
      obtain ⟨written, wrote, done⟩ := bind_ok done
      obtain rfl := write_block_disk wrote
      obtain ⟨disk, same, others⟩ := ih done
      refine ⟨disk, same, ?_⟩
      intro b outside
      simp only [List.map_cons, List.mem_cons, not_or] at outside
      rw [others b outside.2]
      exact Function.update_of_ne outside.1 _ _

theorem flushes_from (fs : MksfsFs) (b : Nat) (flushed : b ∈ (flushes fs).map Prod.fst) : b ∈ fs.blockList ∨ b ∈ fs.inodeList := by
  obtain ⟨write, member, same⟩ := List.mem_map.mp flushed
  subst same
  obtain ⟨i, _, inList⟩ := List.mem_flatMap.mp member
  rcases List.mem_append.mp inList with fromBlocks | fromInodes
  · obtain ⟨cb, kept, same⟩ := List.mem_map.mp fromBlocks
    subst same
    exact Or.inl (List.mem_of_mem_filter kept)
  · obtain ⟨ino, kept, same⟩ := List.mem_map.mp fromInodes
    subst same
    exact Or.inr (List.mem_of_mem_filter kept)

theorem flushes_apart {image : Nat → Bytes} {fs : MksfsFs} (built : Built image fs) (b : Nat) (free : ¬ fs.allocated b) (other : b ≠ blknRoot) :
    b ∉ (flushes fs).map Prod.fst := by
  intro flushed
  rcases flushes_from fs b flushed with cached | inode
  · exact free (List.mem_map_of_mem (built.cached b cached))
  · exact (built.inodes b inode).elim other fun given => free (List.mem_map_of_mem given)

-- What close_sfs leaves in the image.
structure Closed (image : Nat → Bytes) (fs : MksfsFs) : Prop where
  built : ∃ disk, Built image { fs with disk := disk }
  super : fs.disk blknSuper = memcpy zeroBytes 0 (encodeSuper fs.super) superSize
  freemap : ∀ k, k < roundUpDiv fs.ninos blkBits → fs.disk (blknFreemap + k) = freemapBlock fs (k * blkBits)
  untouched : ∀ b, Unallocated fs b → fs.disk b = image b

theorem close_sfs_closed {image : Nat → Bytes} {fs next : MksfsFs} (built : Built image fs)
    (done : closeSfs fs = .ok next) : Closed image next := by
  obtain ⟨mapped, wroteMap, done⟩ := bind_ok done
  obtain ⟨topped, wroteSuper, done⟩ := bind_ok done
  obtain ⟨mapDisk, rfl, blocks, others⟩ := write_freemap_disk _ 0 blknFreemap wroteMap
  obtain rfl := write_block_disk wroteSuper
  obtain ⟨disk, rfl, kept⟩ := flush_all_disk _ done
  replace kept : ∀ b, b ∉ (flushes fs).map Prod.fst →
      disk b = Function.update mapDisk blknSuper (memcpy zeroBytes 0 (encodeSuper fs.super) superSize) b := kept
  have apart : ∀ b, ¬ fs.allocated b → b ≠ blknRoot → b ∉ (flushes fs).map Prod.fst := flushes_apart built
  have system : ∀ b, b < freemapEnd fs.ninos → ¬ fs.allocated b := fun b below given => absurd ((built.allocs b).mp given).1 (Nat.not_le.mpr below)
  refine ⟨⟨fs.disk, built⟩, ?_, ?_, ?_⟩
  · show disk blknSuper = _
    rw [kept blknSuper (apart _ (system _ (by simp only [freemapEnd, blknSuper, blknFreemap]; omega)) (by decide)), Function.update_self]
    rfl
  · intro k below
    have between : blknFreemap + k < freemapEnd fs.ninos := Nat.add_lt_add_left below _
    have notRoot : blknFreemap + k ≠ blknRoot := by
      simp only [blknFreemap, blknRoot]
      omega
    have notSuper : blknFreemap + k ≠ blknSuper := by
      simp only [blknFreemap, blknSuper]
      omega
    show disk (blknFreemap + k) = _
    rw [kept _ (apart _ (system _ between) notRoot), Function.update_of_ne notSuper, blocks k below, Nat.zero_add]
    rfl
  · intro b free
    obtain ⟨above, unallocated⟩ := free
    have bound : blknFreemap ≤ b := le_trans (Nat.le_add_right _ _) above
    have notRoot : b ≠ blknRoot := by
      simp only [blknFreemap, blknRoot] at bound ⊢
      omega
    have notSuper : b ≠ blknSuper := by
      simp only [blknFreemap, blknSuper] at bound ⊢
      omega
    show disk b = image b
    rw [kept b (apart b unallocated notRoot), Function.update_of_ne notSuper, others b (Or.inr above)]
    by_contra changed
    exact unallocated (built.written b changed)

end Writes

section Image

variable {image : Nat → Bytes} {fs : MksfsFs}

theorem closed_word (closed : Closed image fs) (w : Nat) (inside : w < roundUpDiv fs.ninos blkBits * 1024) :
    diskWord fs.disk w = freemapBuffer fs.ninos fs.nextIno (w / 1024 * blkBits) (w % 1024) := by
  let buffer : Bitmap := ⟨blkBits, blkSize / 4, freemapBuffer fs.ninos fs.nextIno (w / 1024 * blkBits)⟩
  have block := closed.freemap (w / 1024) (by omega)
  have bytes : getLe (fs.disk (blknFreemap + w / 1024)) (w % 1024 * 4) 4 = getLe (bitmapData buffer) (4 * (w % 1024)) 4 := by
    rw [block]
    refine get_le_congr _ _ _ _ 4 fun k below => ?_
    rw [freemapBlock, memcpy_inside _ _ _ _ _ (Nat.zero_le _) (by simp only [blkSize]; omega), Nat.sub_zero, Nat.mul_comm (w % 1024) 4]
  rw [diskWord, bytes, bitmap_data_word]
  exact BitVec.ofNat_toNat 32 _

-- Bits past the last block are clear.
theorem closed_bit (closed : Closed image fs) (b : Nat) (inside : b < roundUpDiv fs.ninos blkBits * blkBits) :
    (freemapOf fs.disk fs.ninos).bit b = decide (fs.nextIno ≤ b ∧ b < fs.ninos) := by
  have size : blkBits = 32768 := rfl
  have below : b < roundUpDiv fs.ninos blkBits * 32768 := inside
  have word := closed_word closed (b / 32) (by omega)
  have bit := freemap_buffer_bit fs.ninos fs.nextIno (b / 32 / 1024 * blkBits) (b % 32768) (Nat.mod_lt b (by decide))
  have start : b / 32 / 1024 * blkBits + b % 32768 = b := by
    rw [size]
    omega
  have place : b % 32768 / 32 = b / 32 % 1024 := by omega
  have offset : b % 32768 % 32 = b % 32 := by omega
  rw [wordBit, start, place, offset] at bit
  simp only [Bitmap.bit, freemapOf, wordBits, word, bit]

theorem count_between (freemap : Bitmap) (lower upper bound : Nat)
    (bits : ∀ j, j < bound → freemap.bit j = decide (lower ≤ j ∧ j < upper)) : freemap.count bound = min bound upper - lower := by
  induction bound with
  | zero => simp [Bitmap.count]
  | succ bound ih =>
      rw [Bitmap.count, ih fun j below => bits j (by omega), bits bound (by omega)]
      by_cases between : lower ≤ bound ∧ bound < upper
      · rw [decide_eq_true between, Bool.toNat_true]
        omega
      · rw [decide_eq_false between, Bool.toNat_false]
        omega

theorem closed_unallocated (closed : Closed image fs) (b : Nat) : Unallocated fs b ↔ fs.nextIno ≤ b := by
  obtain ⟨disk, built⟩ := closed.built
  have allocs : fs.allocated b ↔ freemapEnd fs.ninos ≤ b ∧ b < fs.nextIno := built.allocs b
  have lower : freemapEnd fs.ninos ≤ fs.nextIno := built.lower
  rw [Unallocated, allocs]
  omega

-- Whatever the driver answers, the read of a block gives an error or the block.
theorem init_read_cases (dev : Device) (blkno : Nat) (buf : Bytes) (small : blkno < 2 ^ 20) :
    ∃ ret read dev', sfsInitRead dev blkno buf = (ret, read, dev') ∧ dev'.data = dev.data ∧ dev'.dBlocks = dev.dBlocks ∧
      (ret = 0 → read = dev.data blkno) ∧ (dev.results = [] → dev'.results = [] ∧ (blkno < dev.dBlocks → ret = 0)) := by
  have offset : blkno * blkSize % 2 ^ 32 = blkno * blkSize := by
    simp only [blkSize]
    omega
  have aligned : blkno * blkSize % blkSize = 0 := Nat.mul_mod_left blkno blkSize
  have place : blkno * blkSize / blkSize = blkno := Nat.mul_div_cancel blkno (by decide)
  simp only [sfsInitRead, dopIo, offset, aligned, place]
  by_cases past : dev.dBlocks < blkno + 1
  · refine ⟨eInval, buf, dev, by simp [past], rfl, rfl, fun zero => absurd zero (by decide), fun none => ⟨none, fun inside => ?_⟩⟩
    omega
  · cases results : dev.results with
    | nil => exact ⟨0, dev.data blkno, dev, by simp [past], rfl, rfl, fun _ => rfl, fun _ => ⟨results, fun _ => rfl⟩⟩
    | cons ret rest =>
        by_cases zero : ret = 0
        · exact ⟨0, dev.data blkno, { dev with results := rest }, by simp [past, zero], rfl, rfl, fun _ => rfl, fun none => absurd none (by simp)⟩
        · exact ⟨ret, buf, { dev with results := rest }, by simp [past, zero], rfl, rfl, fun same => absurd same zero,
            fun none => absurd none (by simp)⟩

theorem init_freemap_cases (nblks : Nat) (dev : Device) (bytes : Bytes) (data blkno : Nat) (small : blkno + nblks ≤ 2 ^ 20) :
    ∃ ret read dev', sfsInitFreemap dev bytes data blkno nblks = (ret, read, dev') ∧ (∀ j, j < data → read j = bytes j) ∧
      (ret = 0 → ∀ k, k < nblks → ∀ j, j < 4096 → read (data + k * 4096 + j) = dev.data (blkno + k) j) ∧
      (dev.results = [] → blkno + nblks ≤ dev.dBlocks → ret = 0) := by
  induction nblks generalizing dev bytes data blkno with
  | zero => exact ⟨0, bytes, dev, rfl, fun _ _ => rfl, fun _ k below => absurd below (Nat.not_lt_zero k), fun _ _ => rfl⟩
  | succ nblks ih =>
      obtain ⟨ret, block, dev', first, same, dBlocks, content, clean⟩ := init_read_cases dev blkno (bytes.from data) (by omega)
      by_cases zero : ret = 0
      · obtain ⟨ret', read, dev'', rest, before, blocks, clean'⟩ :=
          ih dev' (memcpy bytes data block blkSize) (data + blkSize) (blkno + 1) (by omega)
        have size : blkSize = 4096 := rfl
        refine ⟨ret', read, dev'', by simp [sfsInitFreemap, first, zero, rest], fun j below => ?_, fun done k below j inBlock => ?_,
          fun none inside => clean' (clean none).1 (by omega)⟩
        · rw [before j (by omega), memcpy_outside _ _ _ _ _ (by omega)]
        · cases k with
          | zero =>
              rw [before _ (by omega), memcpy_inside _ _ _ _ _ (by omega) (by omega), Nat.add_zero, content zero]
              congr 1
              omega
          | succ k =>
              have later := blocks done k (by omega) j inBlock
              rw [show data + (k + 1) * 4096 + j = data + blkSize + k * 4096 + j by omega, later,
                show blkno + 1 + k = blkno + (k + 1) by omega, same]
      · refine ⟨ret, bytes, dev', by simp [sfsInitFreemap, first, zero], fun _ _ => rfl, fun same => absurd same zero,
          fun none inside => ?_⟩
        exact absurd ((clean none).2 (by omega)) zero

theorem closed_small (closed : Closed image fs) :
    freemapEnd fs.ninos < fs.ninos ∧ fs.ninos ≤ 524288 ∧ fs.unusedBlocks = fs.ninos - fs.nextIno := by
  obtain ⟨disk, built⟩ := closed.built
  exact ⟨built.room, built.small, built.unused⟩

-- The count of sfs_do_mount over the bits that it has read.
theorem closed_count (closed : Closed image fs) (freemap : Bitmap) (bits : freemap.nbits = roundUpDiv fs.ninos blkBits * blkBits)
    (words : ∀ w, w < roundUpDiv fs.ninos blkBits * 1024 → freemap.map w = diskWord fs.disk w) :
    countUnused freemap 0 0 (roundUpDiv fs.ninos blkBits * blkBits) = .ok fs.unusedBlocks := by
  obtain ⟨_, _, unused⟩ := closed_small closed
  have size : blkBits = 32768 := rfl
  have counted := count_unused_spec freemap (roundUpDiv fs.ninos blkBits * blkBits) 0 (by omega)
  have between := count_between freemap fs.nextIno fs.ninos (roundUpDiv fs.ninos blkBits * blkBits) fun j below => by
    have inside : j < roundUpDiv fs.ninos blkBits * 32768 := below
    have bit := closed_bit closed j below
    simp only [Bitmap.bit, freemapOf, wordBits] at bit ⊢
    rw [words (j / 32) (by omega), bit]
  have covers : fs.ninos ≤ roundUpDiv fs.ninos blkBits * blkBits := by
    simp only [roundUpDiv, size]
    omega
  rw [Nat.zero_add, Bitmap.count, between, Nat.min_eq_right covers, ← unused] at counted
  exact counted

theorem closed_mounts (closed : Closed image fs) (dev : Device) (holds : dev.data = fs.disk) :
    ∃ ret dev' sfs, sfsDoMount dev = .ok (ret, dev', sfs) ∧ (dev.results = [] → fs.ninos ≤ dev.dBlocks → ret = 0 ∧ sfs.isSome = true) := by
  obtain ⟨room, small, unused⟩ := closed_small closed
  have nonempty : 0 < fs.ninos := Nat.lt_of_le_of_lt (Nat.zero_le _) room
  obtain ⟨ret, read, dev', first, same, dBlocks, content, clean⟩ := init_read_cases dev blknSuper zeroBytes (by decide)
  by_cases failed : ret = 0
  case neg =>
    refine ⟨ret, dev', none, ?_, fun none inside => absurd ((clean none).2 (by simp only [blknSuper]; omega)) failed⟩
    rw [sfsDoMount, first]
    simp [failed]
  have header : decodeSuper read = fs.super := by
    rw [content failed, holds, closed.super]
    refine decode_encode_super fs.super zeroBytes ⟨by show sfsMagic < 2 ^ 32; decide, ?_, ?_⟩
    · show fs.ninos < 2 ^ 32
      omega
    · show fs.unusedBlocks < 2 ^ 32
      omega
  have size : blkBits = 32768 := rfl
  have bits : sfsFreemapBits { fs.super with info := Function.update fs.super.info ⟨maxInfoLen, by decide⟩ 0 } =
      roundUpDiv fs.ninos blkBits * blkBits := by
    refine Nat.mod_eq_of_lt ?_
    show roundUpDiv fs.ninos blkBits * blkBits < 2 ^ 32
    simp only [roundUpDiv, size]
    omega
  by_cases large : dev'.dBlocks < fs.ninos
  · refine ⟨eInval, dev', none, ?_, fun _ inside => by omega⟩
    have refused : fs.super.magic ≠ sfsMagic ∨ dev'.dBlocks < fs.super.blocks := Or.inr large
    rw [sfsDoMount, first]
    simp only [failed, ne_eq, not_true_eq_false, if_false, header]
    rw [if_pos refused]
    rfl
  · have accepted : ¬ (fs.super.magic ≠ sfsMagic ∨ dev'.dBlocks < fs.super.blocks) := by
      intro refused
      exact refused.elim (fun wrong => wrong rfl) large
    have positive : roundUpDiv fs.ninos blkBits * blkBits ≠ 0 := by
      simp only [roundUpDiv, size]
      omega
    obtain ⟨b, created, bBits, bWords, _⟩ := bitmap_create_spec (roundUpDiv fs.ninos blkBits * blkBits) positive (by
      simp only [roundUpDiv, size]
      omega)
    have nwords : b.nwords = roundUpDiv fs.ninos blkBits * 1024 := by
      rw [bWords]
      simp only [roundUpDiv, size]
      omega
    have wide : b.nwords * 4 = sfsFreemapBlocks { fs.super with info := Function.update fs.super.info ⟨maxInfoLen, by decide⟩ 0 } * blkSize := by
      show b.nwords * 4 = roundUpDiv fs.ninos blkBits * 4096
      omega
    obtain ⟨ret', data, dev'', loaded, _, blocks, clean'⟩ :=
      init_freemap_cases (roundUpDiv fs.ninos blkBits) dev' (bitmapData b) 0 blknFreemap (by
        simp only [roundUpDiv, size, blknFreemap]
        omega)
    let mounted : SfsFs := ⟨{ fs.super with info := Function.update fs.super.info ⟨maxInfoLen, by decide⟩ 0 }, dev'', bitmapOfData b data, false⟩
    have start : sfsDoMount dev =
        if ret' ≠ 0 then .ok (ret', dev'', none)
        else do
          let unused ← countUnused (bitmapOfData b data) 0 0 (roundUpDiv fs.ninos blkBits * blkBits)
          check (unused = fs.unusedBlocks) .assertFailed
          return (0, dev'', some mounted) := by
      have sameBlocks : sfsFreemapBlocks { fs.super with info := Function.update fs.super.info ⟨maxInfoLen, by decide⟩ 0 } =
          roundUpDiv fs.ninos blkBits := rfl
      rw [sfsDoMount, first]
      simp only [failed, ne_eq, not_true_eq_false, if_false, header, if_neg accepted, bits, created, ok_bind, wide, decide_true, check_true,
        sameBlocks, loaded]
      rfl
    by_cases broken : ret' = 0
    · have words : ∀ w, w < roundUpDiv fs.ninos blkBits * 1024 → (bitmapOfData b data).map w = diskWord fs.disk w := by
        intro w inside
        simp only [bitmapOfData, diskWord]
        congr 1
        refine get_le_congr _ _ _ _ 4 fun k below => ?_
        have byte := blocks broken (w / 1024) (by omega) (w % 1024 * 4 + k) (by omega)
        rw [same, holds] at byte
        rw [← byte]
        congr 1
        omega
      have counted := closed_count closed (bitmapOfData b data) bBits words
      refine ⟨0, dev'', some mounted, ?_, fun _ _ => ⟨rfl, rfl⟩⟩
      rw [start, if_neg (by simp [broken]), counted]
      simp only [ok_bind, decide_true, check_true, pure_ok]
    · refine ⟨ret', dev'', none, by rw [start, if_pos broken], fun none inside => absurd (clean' (clean none).1 ?_) broken⟩
      simp only [freemapEnd] at room
      omega

-- No number is given out twice or outside the blocks behind the freemap; the
-- freemap and the super block agree with what was given out, and a mount of any
-- device with the image stops at no assertion.
structure ImageSound (image : Nat → Bytes) (fs : MksfsFs) : Prop where
  distinct : (fs.allocs.map Prod.fst).Nodup
  between : ∀ b, fs.allocated b → freemapEnd fs.ninos ≤ b ∧ b < fs.ninos
  inodes : ∀ ino ∈ fs.inodeList, ino = blknRoot ∨ (ino, .inode) ∈ fs.allocs
  cached : ∀ cb ∈ fs.blockList, (cb, .indirect) ∈ fs.allocs
  untouched : ∀ b, Unallocated fs b → fs.disk b = image b
  bits : ∀ b, b < roundUpDiv fs.ninos blkBits * blkBits → ((freemapOf fs.disk fs.ninos).bit b = true ↔ b < fs.ninos ∧ Unallocated fs b)
  unused : (decodeSuper (fs.disk blknSuper)).unusedBlocks = (freemapOf fs.disk fs.ninos).count (roundUpDiv fs.ninos blkBits * blkBits)
  mounts : ∀ dev : Device, dev.data = fs.disk →
    ∃ ret dev' sfs, sfsDoMount dev = .ok (ret, dev', sfs) ∧ (dev.results = [] → fs.ninos ≤ dev.dBlocks → ret = 0 ∧ sfs.isSome = true)

theorem closed_sound (closed : Closed image fs) : ImageSound image fs := by
  obtain ⟨_, small, unused⟩ := closed_small closed
  obtain ⟨disk, built⟩ := closed.built
  have upper : fs.nextIno ≤ fs.ninos := built.upper
  refine ⟨built.distinct, ?_, built.inodes, built.cached, closed.untouched, ?_, ?_, fun dev holds => closed_mounts closed dev holds⟩
  · intro b given
    have range := (built.allocs b).mp given
    exact ⟨range.1, Nat.lt_of_lt_of_le range.2 upper⟩
  · intro b inside
    rw [closed_bit closed b inside, decide_eq_true_eq, closed_unallocated closed b]
    exact And.comm
  · have copy : decodeSuper (fs.disk blknSuper) = fs.super := by
      rw [closed.super]
      refine decode_encode_super fs.super zeroBytes ⟨by show sfsMagic < 2 ^ 32; decide, ?_, ?_⟩
      · show fs.ninos < 2 ^ 32
        omega
      · show fs.unusedBlocks < 2 ^ 32
        omega
    have counted := closed_count closed (freemapOf fs.disk fs.ninos) rfl fun w _ => rfl
    have same := count_unused_spec (freemapOf fs.disk fs.ninos) (roundUpDiv fs.ninos blkBits * blkBits) 0 (by
      show 0 + roundUpDiv fs.ninos blkBits * blkBits ≤ roundUpDiv fs.ninos blkBits * blkBits
      omega)
    rw [Nat.zero_add, Bitmap.count, counted] at same
    rw [copy]
    exact Except.ok.inj same

end Image

theorem image_sound (stSize : Nat) (garbage : Bytes) (image : Nat → Bytes) (home : HostDir) (fs : MksfsFs)
    (made : createImg stSize garbage image home = .ok fs) : ImageSound image fs := by
  obtain ⟨created, create, made⟩ := bind_ok made
  obtain ⟨dotted, dots, made⟩ := bind_ok made
  obtain ⟨filled, opened, made⟩ := bind_ok made
  have built := open_dir_loop_built home blknRoot (add_dots_built (create_sfs_built stSize garbage create) blknRoot blknRoot dots) opened
  exact closed_sound (close_sfs_closed built made)

-- A directory with a file of 5000 bytes in it, a link to that file and a hidden
-- file, in an image of 32 blocks and a half.
def smallHome : HostDir :=
  .dir [98, 105, 110] 7 (.file [115, 104] 8 ⟨5000, fun i => UInt8.ofNat i⟩ .nil)
    (.link [108] 9 ⟨6, fun _ => 97⟩ (.file [46, 114, 99] 10 ⟨1, zeroBytes⟩ .nil))

theorem image_sound_small :
    ∃ fs, createImg 133120 zeroBytes (fun _ => zeroBytes) smallHome = .ok fs ∧ ImageSound (fun _ => zeroBytes) fs := by
  have returns : (createImg 133120 zeroBytes (fun _ => zeroBytes) smallHome).toOption.isSome = true := by decide +kernel
  cases made : createImg 133120 zeroBytes (fun _ => zeroBytes) smallHome with
  | error fault => simp [made, Except.toOption] at returns
  | ok fs => exact ⟨fs, rfl, image_sound 133120 zeroBytes (fun _ => zeroBytes) smallHome fs made⟩

end Ucore.Mksfs
