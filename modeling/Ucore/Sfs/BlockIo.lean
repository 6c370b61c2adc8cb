import Ucore.Dev.Disk0
import Ucore.Sfs.SfsIo

set_option autoImplicit false

namespace Ucore.Sfs.BlockIo

open Ucore.Lib Ucore.Dev

-- What the block transfers use of struct sfs_fs: super.blocks, the device and
-- the buffer they share.
structure SfsDisk where
  blocks : Nat
  disk : Disk0
  sfsBuffer : Bytes

-- The byte offset of a block is computed in 32 bits.
def sfsRwblockNolock (s : SfsDisk) (buf : Bytes) (base blkno : Nat) (write checked : Bool) : Except IoFault (Int × Bytes × SfsDisk) := do
  check ((blkno ≠ 0 ∨ !checked) ∧ blkno < s.blocks) .assertFailed
  let (ret, iob, disk) ← disk0Io s.disk (iobufInit buf base blkSize (blkno * blkSize % 2 ^ 32)) write
  return (ret, iob.buf, { s with disk := disk })

def sfsRwblock (s : SfsDisk) (buf : Bytes) (base blkno : Nat) (write : Bool) : Nat → Except IoFault (Int × Bytes × SfsDisk)
  | 0 => .ok (0, buf, s)
  | nblks + 1 => do
      let (ret, buf, s) ← sfsRwblockNolock s buf base blkno write true
      if ret ≠ 0 then return (ret, buf, s)
      else sfsRwblock s buf (base + blkSize) ((blkno + 1) % 2 ^ 32) write nblks

def sfsRblock (s : SfsDisk) (buf : Bytes) (blkno nblks : Nat) : Except IoFault (Int × Bytes × SfsDisk) := sfsRwblock s buf 0 blkno false nblks

def sfsWblock (s : SfsDisk) (buf : Bytes) (blkno nblks : Nat) : Except IoFault (Int × Bytes × SfsDisk) := sfsRwblock s buf 0 blkno true nblks

def sfsRbuf (s : SfsDisk) (buf : Bytes) (len blkno : Nat) (offset : Int) : Except IoFault (Int × Bytes × SfsDisk) := do
  check (0 ≤ offset ∧ offset < blkSize ∧ (offset.toNat + len) % 2 ^ 64 ≤ blkSize) .assertFailed
  let (ret, sfsBuffer, s) ← sfsRwblockNolock s s.sfsBuffer 0 blkno false true
  return (ret, if ret = 0 then memcpy buf 0 (sfsBuffer.from offset.toNat) len else buf, { s with sfsBuffer := sfsBuffer })

def sfsWbuf (s : SfsDisk) (buf : Bytes) (len blkno : Nat) (offset : Int) : Except IoFault (Int × SfsDisk) := do
  check (0 ≤ offset ∧ offset < blkSize ∧ (offset.toNat + len) % 2 ^ 64 ≤ blkSize) .assertFailed
  let (ret, sfsBuffer, s) ← sfsRwblockNolock s s.sfsBuffer 0 blkno false true
  if ret ≠ 0 then return (ret, { s with sfsBuffer := sfsBuffer })
  else
    let (ret, sfsBuffer, s) ← sfsRwblockNolock s (memcpy sfsBuffer offset.toNat buf len) 0 blkno true true
    return (ret, { s with sfsBuffer := sfsBuffer })

-- One block after the other, on the bytes of the disk.
def storeBlocks (image buf : Bytes) (base blkno : Nat) : Nat → Bytes
  | 0 => image
  | nblks + 1 => storeBlocks (memcpy image (blkno * blkSize) (buf.from base) blkSize) buf (base + blkSize) (blkno + 1) nblks

def loadBlocks (image buf : Bytes) (base blkno : Nat) : Nat → Bytes
  | 0 => buf
  | nblks + 1 => loadBlocks image (memcpy buf base (image.from (blkno * blkSize)) blkSize) (base + blkSize) (blkno + 1) nblks

theorem store_blocks_whole (image buf : Bytes) (base blkno nblks : Nat) :
    storeBlocks image buf base blkno nblks = memcpy image (blkno * blkSize) (buf.from base) (nblks * blkSize) := by
  induction nblks generalizing image base blkno with
  | zero => rw [storeBlocks, Nat.zero_mul, memcpy_none]
  | succ nblks ih =>
      have joined := memcpy_append image (buf.from base) (blkno * blkSize) blkSize (nblks * blkSize)
      rw [from_from] at joined
      rw [storeBlocks, ih, Nat.succ_mul, Nat.succ_mul, joined, Nat.add_comm blkSize]

theorem load_blocks_whole (image buf : Bytes) (base blkno nblks : Nat) :
    loadBlocks image buf base blkno nblks = memcpy buf base (image.from (blkno * blkSize)) (nblks * blkSize) := by
  induction nblks generalizing buf base blkno with
  | zero => rw [loadBlocks, Nat.zero_mul, memcpy_none]
  | succ nblks ih =>
      have joined := memcpy_append buf (image.from (blkno * blkSize)) base blkSize (nblks * blkSize)
      rw [from_from] at joined
      rw [loadBlocks, ih, Nat.succ_mul, Nat.succ_mul, joined, Nat.add_comm blkSize]

-- sfs_wbuf changes the window of the block and nothing else, and sfs_rbuf gives
-- its bytes back.
structure FrameLaw (s : SfsDisk) (buf : Bytes) (len blkno : Nat) (offset : Int) : Prop where
  round : ∃ written, sfsWbuf s buf len blkno offset = .ok (0, written) ∧ written.blocks = s.blocks ∧
    written.disk.ide.image = memcpy s.disk.ide.image (blkno * blkSize + offset.toNat) buf len ∧
    ∀ dst, ∃ read, sfsRbuf written dst len blkno offset = .ok (0, memcpy dst 0 buf len, read) ∧ read.blocks = s.blocks ∧
      read.disk.ide.image = written.disk.ide.image

-- A run of blocks is transferred as if block by block, through sfs_rwblock and
-- through one call of disk0_io.
structure RunLaw (s : SfsDisk) (buf : Bytes) (blkno nblks : Nat) : Prop where
  writes : ∃ written, sfsWblock s buf blkno nblks = .ok (0, buf, written) ∧ written.blocks = s.blocks ∧
    written.disk.ide.image = storeBlocks s.disk.ide.image buf 0 blkno nblks
  reads : ∃ read, sfsRblock s buf blkno nblks = .ok (0, loadBlocks s.disk.ide.image buf 0 blkno nblks, read) ∧ read.blocks = s.blocks ∧
    read.disk.ide.image = s.disk.ide.image
  wholeWrite : ∃ iob disk, disk0Io s.disk (iobufInit buf 0 (nblks * blkSize) (blkno * blkSize)) true = .ok (0, iob, disk) ∧
    disk.ide.image = storeBlocks s.disk.ide.image buf 0 blkno nblks
  wholeRead : ∃ iob disk, disk0Io s.disk (iobufInit buf 0 (nblks * blkSize) (blkno * blkSize)) false = .ok (0, iob, disk) ∧
    iob.buf = loadBlocks s.disk.ide.image buf 0 blkno nblks ∧ disk.ide.image = s.disk.ide.image

section Blocks

variable (s : SfsDisk) (onDisk : s.blocks ≤ s.disk.dBlocks)

include onDisk

theorem rwblock_checks (blkno : Nat) (named : 0 < blkno) (inside : blkno < s.blocks) :
    decide ((blkno ≠ 0 ∨ !true) ∧ blkno < s.blocks) = true ∧ blkno * blkSize % 2 ^ 32 = blkno * disk0Blksize := by
  have small := s.disk.small
  have blocks : s.disk.dBlocks = s.disk.ide.size / 8 := rfl
  refine ⟨decide_eq_true ⟨Or.inl (by omega), inside⟩, ?_⟩
  simp only [blkSize, disk0Blksize]
  omega

theorem write_block_spec (buf : Bytes) (base blkno : Nat) (named : 0 < blkno) (inside : blkno < s.blocks) :
    ∃ bounce, sfsRwblockNolock s buf base blkno true true =
      .ok (0, buf, { s with disk := (s.disk.store (memcpy s.disk.ide.image (blkno * blkSize) (buf.from base) blkSize)).fill bounce }) := by
  obtain ⟨checks, offset⟩ := rwblock_checks s onDisk blkno named inside
  obtain ⟨iob, bounce, wrote, kept⟩ := disk0_writes s.disk buf base blkno 1 (by omega)
  rw [Nat.one_mul] at wrote
  refine ⟨bounce, ?_⟩
  rw [sfsRwblockNolock, checks, check_true, ok_bind, offset]
  show (do let (ret, iob, disk) ← disk0Io s.disk (iobufInit buf base disk0Blksize (blkno * disk0Blksize)) true
           return (ret, iob.buf, { s with disk := disk })) = _
  rw [wrote, ok_bind]
  simp only [kept, pure_ok]
  rfl

theorem read_block_spec (buf : Bytes) (base blkno : Nat) (named : 0 < blkno) (inside : blkno < s.blocks) :
    ∃ bounce, sfsRwblockNolock s buf base blkno false true =
      .ok (0, memcpy buf base (s.disk.ide.image.from (blkno * blkSize)) blkSize, { s with disk := s.disk.fill bounce }) := by
  obtain ⟨checks, offset⟩ := rwblock_checks s onDisk blkno named inside
  obtain ⟨iob, bounce, read, filled⟩ := disk0_reads s.disk buf base blkno 1 (by omega)
  rw [Nat.one_mul] at read filled
  refine ⟨bounce, ?_⟩
  rw [sfsRwblockNolock, checks, check_true, ok_bind, offset]
  show (do let (ret, iob, disk) ← disk0Io s.disk (iobufInit buf base disk0Blksize (blkno * disk0Blksize)) false
           return (ret, iob.buf, { s with disk := disk })) = _
  rw [read, ok_bind]
  simp only [filled, pure_ok]
  rfl

end Blocks

theorem write_run_spec (nblks : Nat) (s : SfsDisk) (onDisk : s.blocks ≤ s.disk.dBlocks) (buf : Bytes) (base blkno : Nat) (named : 0 < blkno)
    (inside : blkno + nblks ≤ s.blocks) :
    ∃ written, sfsRwblock s buf base blkno true nblks = .ok (0, buf, written) ∧ written.blocks = s.blocks ∧
      written.disk.ide.image = storeBlocks s.disk.ide.image buf base blkno nblks := by
  induction nblks generalizing s base blkno with
  | zero => exact ⟨s, rfl, rfl, rfl⟩
  | succ nblks ih =>
      have small := s.disk.small
      have blocks : s.disk.dBlocks = s.disk.ide.size / 8 := rfl
      have next : (blkno + 1) % 2 ^ 32 = blkno + 1 := by omega
      obtain ⟨bounce, wrote⟩ := write_block_spec s onDisk buf base blkno named (by omega)
      obtain ⟨written, rest, same, image⟩ := ih
        { s with disk := (s.disk.store (memcpy s.disk.ide.image (blkno * blkSize) (buf.from base) blkSize)).fill bounce } onDisk
        (base + blkSize) (blkno + 1) (by omega) (by show blkno + 1 + nblks ≤ s.blocks; omega)
      refine ⟨written, ?_, same, image⟩
      rw [sfsRwblock, wrote, ok_bind]
      simp only [ne_eq, not_true_eq_false, if_false, next]
      exact rest

theorem read_run_spec (nblks : Nat) (s : SfsDisk) (onDisk : s.blocks ≤ s.disk.dBlocks) (buf : Bytes) (base blkno : Nat) (named : 0 < blkno)
    (inside : blkno + nblks ≤ s.blocks) :
    ∃ read, sfsRwblock s buf base blkno false nblks = .ok (0, loadBlocks s.disk.ide.image buf base blkno nblks, read) ∧
      read.blocks = s.blocks ∧ read.disk.ide.image = s.disk.ide.image := by
  induction nblks generalizing s buf base blkno with
  | zero => exact ⟨s, rfl, rfl, rfl⟩
  | succ nblks ih =>
      have small := s.disk.small
      have blocks : s.disk.dBlocks = s.disk.ide.size / 8 := rfl
      have next : (blkno + 1) % 2 ^ 32 = blkno + 1 := by omega
      obtain ⟨bounce, got⟩ := read_block_spec s onDisk buf base blkno named (by omega)
      obtain ⟨read, rest, same, image⟩ := ih { s with disk := s.disk.fill bounce } onDisk
        (memcpy buf base (s.disk.ide.image.from (blkno * blkSize)) blkSize) (base + blkSize) (blkno + 1) (by omega)
        (by show blkno + 1 + nblks ≤ s.blocks; omega)
      refine ⟨read, ?_, same, image⟩
      rw [sfsRwblock, got, ok_bind]
      simp only [ne_eq, not_true_eq_false, if_false, next]
      exact rest

theorem buf_checks (len offset : Nat) (starts : offset < blkSize) (fits : offset + len ≤ blkSize) :
    decide (0 ≤ (offset : Int) ∧ (offset : Int) < blkSize ∧ ((offset : Int).toNat + len) % 2 ^ 64 ≤ blkSize) = true := by
  simp only [blkSize] at *
  refine decide_eq_true ⟨by omega, by omega, ?_⟩
  rw [Int.toNat_natCast, Nat.mod_eq_of_lt (by omega)]
  exact fits

theorem rbuf_spec (s : SfsDisk) (onDisk : s.blocks ≤ s.disk.dBlocks) (dst : Bytes) (len blkno offset : Nat) (named : 0 < blkno)
    (inside : blkno < s.blocks) (starts : offset < blkSize) (fits : offset + len ≤ blkSize) :
    ∃ read, sfsRbuf s dst len blkno offset = .ok (0, memcpy dst 0 (s.disk.ide.image.from (blkno * blkSize + offset)) len, read) ∧
      read.blocks = s.blocks ∧ read.disk.ide.image = s.disk.ide.image := by
  obtain ⟨bounce, got⟩ := read_block_spec s onDisk s.sfsBuffer 0 blkno named inside
  have window : memcpy dst 0 ((memcpy s.sfsBuffer 0 (s.disk.ide.image.from (blkno * blkSize)) blkSize).from offset) len =
      memcpy dst 0 (s.disk.ide.image.from (blkno * blkSize + offset)) len := by
    refine memcpy_congr dst _ _ 0 len fun k below => ?_
    rw [Bytes.from, memcpy_inside _ _ _ _ _ (Nat.zero_le _) (by omega), Bytes.from, Bytes.from, Nat.sub_zero, Nat.add_assoc]
  refine ⟨{ s with disk := s.disk.fill bounce, sfsBuffer := memcpy s.sfsBuffer 0 (s.disk.ide.image.from (blkno * blkSize)) blkSize },
    ?_, rfl, rfl⟩
  rw [sfsRbuf, buf_checks len offset starts fits, check_true, ok_bind, got, ok_bind, ← window]
  rfl

theorem wbuf_spec (s : SfsDisk) (onDisk : s.blocks ≤ s.disk.dBlocks) (buf : Bytes) (len blkno offset : Nat) (named : 0 < blkno)
    (inside : blkno < s.blocks) (starts : offset < blkSize) (fits : offset + len ≤ blkSize) :
    ∃ written, sfsWbuf s buf len blkno offset = .ok (0, written) ∧ written.blocks = s.blocks ∧ written.disk.dBlocks = s.disk.dBlocks ∧
      written.disk.ide.image = memcpy s.disk.ide.image (blkno * blkSize + offset) buf len := by
  let block := memcpy s.sfsBuffer 0 (s.disk.ide.image.from (blkno * blkSize)) blkSize
  obtain ⟨bounce, got⟩ := read_block_spec s onDisk s.sfsBuffer 0 blkno named inside
  obtain ⟨last, wrote⟩ := write_block_spec { s with disk := s.disk.fill bounce } onDisk (memcpy block offset buf len) 0 blkno named inside
  -- Outside the window the block that goes back is the one that was read.
  have window : memcpy s.disk.ide.image (blkno * blkSize) ((memcpy block offset buf len).from 0) blkSize =
      memcpy s.disk.ide.image (blkno * blkSize + offset) buf len := by
    funext i
    by_cases inBlock : blkno * blkSize ≤ i ∧ i < blkno * blkSize + blkSize
    · rw [memcpy_inside _ _ _ _ _ inBlock.1 inBlock.2, Bytes.from, Nat.zero_add]
      by_cases inWindow : blkno * blkSize + offset ≤ i ∧ i < blkno * blkSize + offset + len
      · rw [memcpy_inside _ _ _ _ _ (by omega) (by omega), memcpy_inside _ _ _ _ _ inWindow.1 inWindow.2]
        congr 1
        omega
      · rw [memcpy_outside _ _ _ _ _ (by omega), memcpy_outside _ _ _ _ _ (by omega)]
        simp only [block]
        rw [memcpy_inside _ _ _ _ _ (by omega) (by omega), Bytes.from]
        congr 1
        omega
    · rw [memcpy_outside _ _ _ _ _ (by omega), memcpy_outside _ _ _ _ _ (by omega)]
  refine ⟨{ s with
      disk := ((s.disk.fill bounce).store (memcpy s.disk.ide.image (blkno * blkSize) ((memcpy block offset buf len).from 0) blkSize)).fill last,
      sfsBuffer := memcpy block offset buf len }, ?_, rfl, rfl, window⟩
  rw [sfsWbuf, buf_checks len offset starts fits, check_true, ok_bind, got, ok_bind]
  simp only [ne_eq, not_true_eq_false, if_false, Int.toNat_natCast]
  rw [wrote]
  rfl

theorem frame_law (s : SfsDisk) (onDisk : s.blocks ≤ s.disk.dBlocks) (buf : Bytes) (len blkno offset : Nat) (named : 0 < blkno)
    (inside : blkno < s.blocks) (starts : offset < blkSize) (fits : offset + len ≤ blkSize) : FrameLaw s buf len blkno offset := by
  obtain ⟨written, wrote, same, sameDisk, image⟩ := wbuf_spec s onDisk buf len blkno offset named inside starts fits
  refine ⟨written, wrote, same, image, fun dst => ?_⟩
  obtain ⟨read, got, still, kept⟩ := rbuf_spec written (by rw [same, sameDisk]; exact onDisk) dst len blkno offset named
    (by rw [same]; exact inside) starts fits
  have back : memcpy dst 0 (written.disk.ide.image.from (blkno * blkSize + offset)) len = memcpy dst 0 buf len := by
    refine memcpy_congr dst _ _ 0 len fun k below => ?_
    rw [image, Bytes.from, memcpy_inside _ _ _ _ _ (by omega) (by omega), Nat.add_sub_cancel_left]
  rw [back] at got
  exact ⟨read, got, still.trans same, kept⟩

theorem run_law (s : SfsDisk) (onDisk : s.blocks ≤ s.disk.dBlocks) (buf : Bytes) (blkno nblks : Nat) (named : 0 < blkno)
    (inside : blkno + nblks ≤ s.blocks) : RunLaw s buf blkno nblks := by
  obtain ⟨wroteIob, wroteBounce, wrote, _⟩ := disk0_writes s.disk buf 0 blkno nblks (by omega)
  obtain ⟨readIob, readBounce, read, filled⟩ := disk0_reads s.disk buf 0 blkno nblks (by omega)
  refine ⟨write_run_spec nblks s onDisk buf 0 blkno named inside, read_run_spec nblks s onDisk buf 0 blkno named inside,
    ⟨wroteIob, _, wrote, ?_⟩, ⟨readIob, _, read, ?_, rfl⟩⟩
  · rw [store_blocks_whole]
    rfl
  · rw [filled, load_blocks_whole]
    rfl

theorem block_io_frame (s : SfsDisk) (onDisk : s.blocks ≤ s.disk.dBlocks) :
    (∀ (buf : Bytes) (len blkno offset : Nat), 0 < blkno → blkno < s.blocks → offset < blkSize → offset + len ≤ blkSize →
      FrameLaw s buf len blkno offset) ∧
      ∀ (buf : Bytes) (blkno nblks : Nat), 0 < blkno → blkno + nblks ≤ s.blocks → RunLaw s buf blkno nblks :=
  ⟨fun buf len blkno offset named inside starts fits => frame_law s onDisk buf len blkno offset named inside starts fits,
    fun buf blkno nblks named inside => run_law s onDisk buf blkno nblks named inside⟩

-- A disk of two blocks.
def twoBlocks : SfsDisk := ⟨2, ⟨⟨true, 16, zeroBytes⟩, zeroBytes, rfl, by decide⟩, zeroBytes⟩

theorem block_io_frame_two : FrameLaw twoBlocks (fun _ => 7) 5 1 4091 :=
  (block_io_frame twoBlocks (by decide)).1 (fun _ => 7) 5 1 4091 (by decide) (by decide) (by decide) (by decide)

-- An empty window that begins at the end of the block stops at the assertion.
theorem wbuf_stops_at_block_end : ¬ ∀ (buf : Bytes) (len blkno offset : Nat), 0 < blkno → blkno < twoBlocks.blocks →
    offset + len ≤ blkSize → FrameLaw twoBlocks buf len blkno offset := by
  intro all
  obtain ⟨written, wrote, _⟩ := all zeroBytes 0 1 4096 (by decide) (by decide) (by decide)
  have stops : sfsWbuf twoBlocks zeroBytes 0 1 ((4096 : Nat) : Int) = .error .assertFailed := rfl
  rw [stops] at wrote
  cases wrote

-- The device of the file system's model, as disk0 keeps it.
structure Shows (dev : Device) (d : Disk0) : Prop where
  size : dev.dBlocks = d.dBlocks
  noFault : dev.results = []
  data : ∀ blkno, blkno < d.dBlocks → ∀ j, j < blkSize → dev.data blkno j = d.ide.image (blkno * blkSize + j)

theorem disk0_refuses (d : Disk0) (buf : Bytes) (offset : Nat) (write : Bool) (small : offset < 2 ^ 32)
    (refused : offset % blkSize ≠ 0 ∨ d.dBlocks < offset / blkSize + 1) :
    disk0Io d (iobufInit buf 0 blkSize offset) write = .ok (eInval, iobufInit buf 0 blkSize offset, d) := by
  rw [disk0Io]
  by_cases aligned : offset % blkSize = 0
  · have past : ((iobufInit buf 0 blkSize offset).offset / disk0Blksize % 2 ^ 32 +
        (iobufInit buf 0 blkSize offset).resid / disk0Blksize % 2 ^ 32) % 2 ^ 32 > d.dBlocks := by
      show (offset / disk0Blksize % 2 ^ 32 + blkSize / disk0Blksize % 2 ^ 32) % 2 ^ 32 > d.dBlocks
      have one : blkSize / disk0Blksize % 2 ^ 32 = 1 := rfl
      have fits := d.small
      have blocks : d.dBlocks = d.ide.size / 8 := rfl
      rw [one]
      simp only [blkSize, disk0Blksize] at *
      omega
    have whole : ¬ ((iobufInit buf 0 blkSize offset).offset % disk0Blksize ≠ 0 ∨ (iobufInit buf 0 blkSize offset).resid % disk0Blksize ≠ 0) :=
      fun wrong => wrong.elim (fun odd => odd aligned) fun odd => absurd (show blkSize % disk0Blksize = 0 from rfl) odd
    simp only [if_neg whole]
    exact if_pos past
  · exact if_pos (Or.inl aligned)

theorem image_written (dev : Device) (image buf other : Bytes) (blocks blkno offset : Nat) (place : offset = blkno * blkSize)
    (data : ∀ block, block < blocks → ∀ j, j < blkSize → dev.data block j = image (block * blkSize + j))
    (alike : ∀ j, j < blkSize → buf j = other j) (block : Nat) (bound : block < blocks) (j : Nat) (inBlock : j < blkSize) :
    Function.update dev.data blkno other block j = memcpy image offset (buf.from 0) blkSize (block * blkSize + j) := by
  by_cases here : block = blkno
  · have start : block * blkSize = offset := by rw [here, place]
    rw [here, Function.update_self, ← here, start, memcpy_inside _ _ _ _ _ (by omega) (by omega), Bytes.from,
      show 0 + (offset + j - offset) = j by omega]
    exact (alike j inBlock).symm
  · have apart : block * blkSize + j < offset ∨ offset + blkSize ≤ block * blkSize + j := by
      simp only [blkSize] at *
      omega
    rw [Function.update_of_ne here, memcpy_outside _ _ _ _ _ apart]
    exact data block bound j inBlock

-- The two need the same bytes to write only, and those of the block.
theorem dop_io_shown (dev : Device) (d : Disk0) (buf other : Bytes) (offset : Nat) (write : Bool) (same : Shows dev d) (small : offset < 2 ^ 32)
    (alike : write = true → ∀ j, j < blkSize → buf j = other j) :
    ∃ iob disk, disk0Io d (iobufInit buf 0 blkSize offset) write = .ok ((dopIo dev other offset write).1, iob, disk) ∧
      Shows (dopIo dev other offset write).2.2 disk ∧
      ((dopIo dev other offset write).1 = 0 → ∀ j, j < blkSize → iob.buf j = (dopIo dev other offset write).2.1 j) := by
  obtain ⟨size, noFault, data⟩ := same
  by_cases refused : offset % blkSize ≠ 0 ∨ dev.dBlocks < offset / blkSize + 1
  · have given : dopIo dev other offset write = (eInval, other, dev) := by
      rw [dopIo]
      exact if_pos refused
    rw [given]
    exact ⟨_, d, disk0_refuses d buf offset write small (by rwa [← size]), ⟨size, noFault, data⟩, fun zero => absurd zero (show ¬ eInval = 0 from by decide)⟩
  · have aligned : offset % blkSize = 0 := by omega
    have below : offset / blkSize + 1 ≤ d.dBlocks := by omega
    have place : offset = offset / blkSize * disk0Blksize := (Nat.div_mul_cancel (Nat.dvd_of_mod_eq_zero aligned)).symm
    rw [dopIo]
    simp only [if_neg refused, noFault]
    cases write with
    | true =>
        obtain ⟨iob, bounce, wrote, kept⟩ := disk0_writes d buf 0 (offset / blkSize) 1 below
        rw [Nat.one_mul, ← place] at wrote
        refine ⟨iob, _, wrote, ⟨size, rfl, ?_⟩, fun _ j inBlock => by rw [kept]; exact alike rfl j inBlock⟩
        exact image_written dev d.ide.image buf other d.dBlocks (offset / blkSize) offset place data (alike rfl)
    | false =>
        obtain ⟨iob, bounce, read, filled⟩ := disk0_reads d buf 0 (offset / blkSize) 1 below
        rw [Nat.one_mul, ← place] at read filled
        refine ⟨iob, _, read, ⟨size, noFault, data⟩, fun _ j inBlock => ?_⟩
        have start : offset / blkSize * blkSize = offset := place.symm
        have copied : iob.buf j = dev.data (offset / blkSize) j := by
          rw [filled, data _ (by omega) j inBlock, start]
          exact memcpy_inside buf _ 0 blkSize j (Nat.zero_le j) (by omega)
        exact copied

-- The file system's model, over the disk of this one; what is in sfs_buffer between
-- the calls does not matter.
structure ShowsFs (sfs : SfsFs) (s : SfsDisk) : Prop where
  blocks : s.blocks = sfs.super.blocks
  device : Shows sfs.dev s.disk

section Shown

variable (sfs sfs' : SfsFs) (s : SfsDisk) (shown : ShowsFs sfs s) (ret : Int)

include shown

theorem rwblock_shown (buf other bytes : Bytes) (blkno : Nat) (write : Bool) (alike : write = true → ∀ j, j < blkSize → buf j = other j)
    (ran : Sfs.sfsRwblockNolock sfs other blkno write true = .ok (ret, bytes, sfs')) :
    ∃ block s', sfsRwblockNolock s buf 0 blkno write true = .ok (ret, block, s') ∧ ShowsFs sfs' s' ∧
      (ret = 0 → ∀ j, j < blkSize → block j = bytes j) := by
  obtain ⟨checks, ran⟩ := check_bind_ok ran
  obtain ⟨iob, disk, did, after, brought⟩ := dop_io_shown sfs.dev s.disk buf other (blkno * blkSize % 2 ^ 32) write shown.device
    (Nat.mod_lt _ (by decide)) alike
  simp only [pure_ok, Except.ok.injEq, Prod.mk.injEq] at ran
  obtain ⟨rfl, rfl, rfl⟩ := ran
  refine ⟨iob.buf, { s with disk := disk }, ?_, ⟨shown.blocks, after⟩, brought⟩
  rw [sfsRwblockNolock, shown.blocks, checks, check_true, ok_bind, did, ok_bind]
  rfl

-- sfs_rbuf and sfs_wbuf of the file system's model are those of this one.
theorem rbuf_shown (buf bytes : Bytes) (len blkno offset : Nat) (ran : Sfs.sfsRbuf sfs buf len blkno offset = .ok (ret, bytes, sfs')) :
    ∃ s', sfsRbuf s buf len blkno offset = .ok (ret, bytes, s') ∧ ShowsFs sfs' s' := by
  obtain ⟨checks, ran⟩ := check_bind_ok ran
  obtain ⟨starts, fits⟩ := of_decide_eq_true checks
  obtain ⟨⟨code, block, sfs1⟩, read, ran⟩ := bind_ok ran
  obtain ⟨sfsBuffer, s', got, after, brought⟩ := rwblock_shown sfs sfs1 s shown code s.sfsBuffer zeroBytes block blkno false
    (fun writes => by cases writes) read
  simp only [pure_ok, Except.ok.injEq, Prod.mk.injEq] at ran
  obtain ⟨rfl, rfl, rfl⟩ := ran
  refine ⟨{ s' with sfsBuffer := sfsBuffer }, ?_, ⟨after.blocks, after.device⟩⟩
  rw [sfsRbuf, buf_checks len offset starts fits, check_true, ok_bind, got, ok_bind]
  simp only [pure_ok, Int.toNat_natCast]
  by_cases zero : code = 0
  · have window : memcpy buf 0 (sfsBuffer.from offset) len = memcpy buf 0 (block.from offset) len :=
      memcpy_congr buf _ _ 0 len fun k below => brought zero (offset + k) (by omega)
    rw [if_pos zero, if_pos zero, window]
  · rw [if_neg zero, if_neg zero]

theorem wbuf_shown (buf bytes : Bytes) (len blkno offset : Nat) (ran : Sfs.sfsWbuf sfs buf len blkno offset = .ok (ret, bytes, sfs')) :
    ∃ s', sfsWbuf s buf len blkno offset = .ok (ret, s') ∧ ShowsFs sfs' s' := by
  obtain ⟨checks, ran⟩ := check_bind_ok ran
  obtain ⟨starts, fits⟩ := of_decide_eq_true checks
  obtain ⟨⟨code, block, sfs1⟩, read, ran⟩ := bind_ok ran
  obtain ⟨sfsBuffer, s', got, after, brought⟩ := rwblock_shown sfs sfs1 s shown code s.sfsBuffer zeroBytes block blkno false
    (fun writes => by cases writes) read
  by_cases zero : code = 0
  · subst zero
    simp only [ne_eq, not_true_eq_false, if_false] at ran
    obtain ⟨⟨last, back, sfs2⟩, written, ran⟩ := bind_ok ran
    simp only [pure_ok, Except.ok.injEq, Prod.mk.injEq] at ran
    obtain ⟨rfl, _, rfl⟩ := ran
    have alike : ∀ j, j < blkSize → memcpy sfsBuffer offset buf len j = memcpy block offset buf len j := by
      intro j inBlock
      by_cases inside : offset ≤ j ∧ j < offset + len
      · rw [memcpy_inside _ _ _ _ _ inside.1 inside.2, memcpy_inside _ _ _ _ _ inside.1 inside.2]
      · rw [memcpy_outside _ _ _ _ _ (by omega), memcpy_outside _ _ _ _ _ (by omega)]
        exact brought rfl j inBlock
    obtain ⟨kept, s'', wrote, final, _⟩ := rwblock_shown sfs1 sfs2 s' after last
      (memcpy sfsBuffer offset buf len) (memcpy block offset buf len) back blkno true (fun _ => alike) written
    refine ⟨{ s'' with sfsBuffer := kept }, ?_, ⟨final.blocks, final.device⟩⟩
    rw [sfsWbuf, buf_checks len offset starts fits, check_true, ok_bind, got, ok_bind]
    simp only [ne_eq, not_true_eq_false, if_false, Int.toNat_natCast, wrote, ok_bind, pure_ok]
  · simp only [ne_eq, zero, not_false_eq_true, if_true, pure_ok, Except.ok.injEq, Prod.mk.injEq] at ran
    obtain ⟨rfl, _, rfl⟩ := ran
    refine ⟨{ s' with sfsBuffer := sfsBuffer }, ?_, ⟨after.blocks, after.device⟩⟩
    rw [sfsWbuf, buf_checks len offset starts fits, check_true, ok_bind, got, ok_bind]
    exact if_pos zero

end Shown

end Ucore.Sfs.BlockIo
