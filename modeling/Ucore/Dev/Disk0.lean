import Ucore.Lib.Bytes
import Ucore.Lib.Checked

set_option autoImplicit false

namespace Ucore.Dev

open Ucore.Lib

def sectSize : Nat := 512
def disk0Blksize : Nat := 4096
def disk0Bufsize : Nat := 4 * disk0Blksize
def disk0BlkNsect : Nat := disk0Blksize / sectSize
def maxNsecs : Nat := 128
def maxDiskNsecs : Nat := 0x10000000

def ioInval : Int := -3
def ioNoMem : Int := -4

inductive IoFault where
  | assertFailed
  | panicked
  | outOfFuel
deriving DecidableEq, Repr

-- The caller's memory that an iobuf refers to, and io_base as a place in it.
-- Here io_offset is never negative.
structure Iobuf where
  buf : Bytes
  base : Nat
  offset : Nat
  len : Nat
  resid : Nat

def iobufInit (buf : Bytes) (base len offset : Nat) : Iobuf := ⟨buf, base, offset, len, len⟩

def iobufSkip (iob : Iobuf) (n : Nat) : Except IoFault Iobuf := do
  check (n ≤ iob.resid) .assertFailed
  return { iob with base := iob.base + n, offset := iob.offset + n, resid := iob.resid - n }

-- The code, what is stored in copiedp, the iobuf and data.
def iobufMove (iob : Iobuf) (data : Bytes) (len : Nat) (m2b : Bool) : Except IoFault (Int × Nat × Iobuf × Bytes) :=
  let alen := if iob.resid > len then len else iob.resid
  if alen > 0 then do
    let moved := if m2b then { iob with buf := memcpy iob.buf iob.base data alen } else iob
    let data := if m2b then data else memcpy data 0 (iob.buf.from iob.base) alen
    let iob ← iobufSkip moved alen
    return (if len - alen = 0 then 0 else ioNoMem, alen, iob, data)
  else return (if len = 0 then 0 else ioNoMem, alen, iob, data)

-- What is read of struct ide_device, with the bytes from iobase on.
structure IdeDevice where
  valid : Bool
  size : Nat
  image : Bytes

-- The length of the image is cut to an unsigned int before it is divided.
def ramdiskInit (bytes : Nat) (image : Bytes) : IdeDevice := ⟨bytes ≠ 0, bytes % 2 ^ 32 / sectSize, image⟩

-- The difference to size is taken in a size_t.
def ramdiskRead (dev : IdeDevice) (secno : Nat) (dst : Bytes) (nsecs : Nat) : Int × Bytes :=
  let nsecs := min nsecs ((dev.size + 2 ^ 64 - secno) % 2 ^ 64)
  (0, memcpy dst 0 (dev.image.from (secno * sectSize)) (nsecs * sectSize))

def ramdiskWrite (dev : IdeDevice) (secno : Nat) (src : Bytes) (nsecs : Nat) : Int × Bytes :=
  let nsecs := min nsecs ((dev.size + 2 ^ 64 - secno) % 2 ^ 64)
  (0, memcpy dev.image (secno * sectSize) src (nsecs * sectSize))

def ideReadSecs (dev : IdeDevice) (secno : Nat) (dst : Bytes) (nsecs : Nat) : Except IoFault (Int × Bytes) := do
  check (nsecs ≤ maxNsecs ∧ dev.valid) .assertFailed
  check (secno < maxDiskNsecs ∧ secno + nsecs ≤ maxDiskNsecs) .assertFailed
  return ramdiskRead dev secno dst nsecs

def ideWriteSecs (dev : IdeDevice) (secno : Nat) (src : Bytes) (nsecs : Nat) : Except IoFault (Int × Bytes) := do
  check (nsecs ≤ maxNsecs ∧ dev.valid) .assertFailed
  check (secno < maxDiskNsecs ∧ secno + nsecs ≤ maxDiskNsecs) .assertFailed
  return ramdiskWrite dev secno src nsecs

-- disk0 after its initialisation, with disk0_buffer.
structure Disk0 where
  ide : IdeDevice
  buffer : Bytes
  valid : ide.valid = true
  small : ide.size < 2 ^ 23

namespace Disk0

def dBlocks (d : Disk0) : Nat := d.ide.size / disk0BlkNsect

def fill (d : Disk0) (buffer : Bytes) : Disk0 := { d with buffer := buffer }

def store (d : Disk0) (image : Bytes) : Disk0 := { d with ide := { d.ide with image := image } }

@[simp] theorem fill_blocks (d : Disk0) (buffer : Bytes) : (d.fill buffer).dBlocks = d.dBlocks := rfl

@[simp] theorem fill_image (d : Disk0) (buffer : Bytes) : (d.fill buffer).ide.image = d.ide.image := rfl

@[simp] theorem store_blocks (d : Disk0) (image : Bytes) : (d.store image).dBlocks = d.dBlocks := rfl

@[simp] theorem store_image (d : Disk0) (image : Bytes) : (d.store image).ide.image = image := rfl

end Disk0

def disk0DeviceInit (bytes : Nat) (image buffer : Bytes) : Except IoFault Disk0 :=
  if valid : bytes ≠ 0 then
    .ok ⟨ramdiskInit bytes image, buffer, decide_eq_true valid, by simp only [ramdiskInit, sectSize]; omega⟩
  else .error .panicked

def disk0ReadBlksNolock (d : Disk0) (blkno nblks : Nat) : Except IoFault Disk0 := do
  let (ret, buffer) ← ideReadSecs d.ide (blkno * disk0BlkNsect % 2 ^ 32) d.buffer (nblks * disk0BlkNsect % 2 ^ 32)
  check (ret = 0) .panicked
  return d.fill buffer

def disk0WriteBlksNolock (d : Disk0) (blkno nblks : Nat) : Except IoFault Disk0 := do
  let (ret, image) ← ideWriteSecs d.ide (blkno * disk0BlkNsect % 2 ^ 32) d.buffer (nblks * disk0BlkNsect % 2 ^ 32)
  check (ret = 0) .panicked
  return d.store image

-- The loop of disk0_io, which moves at most disk0_buffer in a round.
def disk0Loop (write : Bool) (d : Disk0) (iob : Iobuf) (blkno resid : Nat) : Nat → Except IoFault (Iobuf × Disk0)
  | 0 => .error .outOfFuel
  | rounds + 1 =>
      if resid = 0 then .ok (iob, d)
      else if write then do
        let (_, copied, iob, buffer) ← iobufMove iob d.buffer disk0Bufsize false
        check (copied ≠ 0 ∧ copied ≤ resid ∧ copied % disk0Blksize = 0) .assertFailed
        let nblks := copied / disk0Blksize % 2 ^ 32
        let d ← disk0WriteBlksNolock (d.fill buffer) blkno nblks
        disk0Loop write d iob ((blkno + nblks) % 2 ^ 32) (resid - copied) rounds
      else do
        let alen := if disk0Bufsize > resid then resid else disk0Bufsize
        let nblks := alen / disk0Blksize % 2 ^ 32
        let d ← disk0ReadBlksNolock d blkno nblks
        let (_, copied, iob, _) ← iobufMove iob d.buffer alen true
        check (copied = alen ∧ copied % disk0Blksize = 0) .assertFailed
        disk0Loop write d iob ((blkno + nblks) % 2 ^ 32) (resid - copied) rounds

def disk0Io (d : Disk0) (iob : Iobuf) (write : Bool) : Except IoFault (Int × Iobuf × Disk0) :=
  let blkno := iob.offset / disk0Blksize % 2 ^ 32
  let nblks := iob.resid / disk0Blksize % 2 ^ 32
  if iob.offset % disk0Blksize ≠ 0 ∨ iob.resid % disk0Blksize ≠ 0 then return (ioInval, iob, d)
  else if (blkno + nblks) % 2 ^ 32 > d.dBlocks then return (ioInval, iob, d)
  else if nblks = 0 then return (0, iob, d)
  else do
    let (iob, d) ← disk0Loop write d iob blkno iob.resid (nblks + 1)
    return (0, iob, d)

def Iobuf.advance (iob : Iobuf) (n : Nat) : Iobuf := { iob with base := iob.base + n, offset := iob.offset + n, resid := iob.resid - n }

theorem move_out (iob : Iobuf) (data : Bytes) (len : Nat) (nonzero : 0 < min iob.resid len) :
    ∃ ret, iobufMove iob data len false =
      .ok (ret, min iob.resid len, iob.advance (min iob.resid len), memcpy data 0 (iob.buf.from iob.base) (min iob.resid len)) := by
  have alen : (if iob.resid > len then len else iob.resid) = min iob.resid len := by
    split <;> omega
  have room : min iob.resid len ≤ iob.resid := Nat.min_le_left _ _
  simp only [iobufMove, alen]
  rw [if_pos nonzero]
  simp only [Bool.false_eq_true, if_false, iobufSkip, decide_eq_true room, check_true, ok_bind, pure_ok]
  exact ⟨_, rfl⟩

theorem move_in (iob : Iobuf) (data : Bytes) (len : Nat) (nonzero : 0 < min iob.resid len) :
    ∃ ret, iobufMove iob data len true =
      .ok (ret, min iob.resid len,
        Iobuf.advance { iob with buf := memcpy iob.buf iob.base data (min iob.resid len) } (min iob.resid len), data) := by
  have alen : (if iob.resid > len then len else iob.resid) = min iob.resid len := by
    split <;> omega
  have room : min iob.resid len ≤ iob.resid := Nat.min_le_left _ _
  simp only [iobufMove, alen]
  rw [if_pos nonzero]
  simp only [if_true, iobufSkip, decide_eq_true room, check_true, ok_bind, pure_ok]
  exact ⟨_, rfl⟩

-- Blocks of the disk that fit in the bounce buffer.
section Chunks

variable (d : Disk0) (blkno nblks : Nat) (inside : blkno + nblks ≤ d.dBlocks) (fits : nblks ≤ 4)

include inside fits

theorem chunk_sectors : blkno * disk0BlkNsect % 2 ^ 32 = blkno * 8 ∧ nblks * disk0BlkNsect % 2 ^ 32 = nblks * 8 ∧
    decide (nblks * 8 ≤ maxNsecs ∧ d.ide.valid = true) = true ∧
    decide (blkno * 8 < maxDiskNsecs ∧ blkno * 8 + nblks * 8 ≤ maxDiskNsecs) = true ∧
    min (nblks * 8) ((d.ide.size + 2 ^ 64 - blkno * 8) % 2 ^ 64) = nblks * 8 := by
  have blocks : d.dBlocks = d.ide.size / 8 := rfl
  have small := d.small
  have sectors : disk0BlkNsect = 8 := rfl
  refine ⟨?_, ?_, decide_eq_true ⟨?_, d.valid⟩, decide_eq_true ⟨?_, ?_⟩, ?_⟩
  · rw [sectors]
    omega
  · rw [sectors]
    omega
  · simp only [maxNsecs]
    omega
  · simp only [maxDiskNsecs]
    omega
  · simp only [maxDiskNsecs]
    omega
  · omega

theorem read_blks_spec : disk0ReadBlksNolock d blkno nblks =
    .ok (d.fill (memcpy d.buffer 0 (d.ide.image.from (blkno * disk0Blksize)) (nblks * disk0Blksize))) := by
  obtain ⟨sectno, nsecs, few, onDisk, whole⟩ := chunk_sectors d blkno nblks inside fits
  rw [disk0ReadBlksNolock, sectno, nsecs, ideReadSecs, few, check_true, ok_bind, onDisk, check_true, ok_bind, ramdiskRead, whole]
  simp only [pure_ok, ok_bind, decide_true, check_true, sectSize, disk0Blksize, Nat.mul_assoc]

theorem write_blks_spec : disk0WriteBlksNolock d blkno nblks =
    .ok (d.store (memcpy d.ide.image (blkno * disk0Blksize) d.buffer (nblks * disk0Blksize))) := by
  obtain ⟨sectno, nsecs, few, onDisk, whole⟩ := chunk_sectors d blkno nblks inside fits
  rw [disk0WriteBlksNolock, sectno, nsecs, ideWriteSecs, few, check_true, ok_bind, onDisk, check_true, ok_bind, ramdiskWrite, whole]
  simp only [pure_ok, ok_bind, decide_true, check_true, sectSize, disk0Blksize, Nat.mul_assoc]

end Chunks

theorem from_from (bytes : Bytes) (first second : Nat) : (bytes.from first).from second = bytes.from (first + second) := by
  funext i
  rw [Bytes.from, Bytes.from, Bytes.from, Nat.add_assoc]

theorem memcpy_bounced (dst src bounce : Bytes) (offset len : Nat) : memcpy dst offset (memcpy bounce 0 src len) len = memcpy dst offset src len :=
  memcpy_congr dst _ _ offset len fun k below => memcpy_inside bounce src 0 len k (Nat.zero_le k) (by omega)

theorem chunk_bounds (resid : Nat) (aligned : resid % disk0Blksize = 0) (left : resid ≠ 0) :
    ∃ nblks, 1 ≤ nblks ∧ nblks ≤ 4 ∧ nblks ≤ resid / disk0Blksize ∧ min resid disk0Bufsize = nblks * disk0Blksize ∧
      nblks * disk0Blksize ≤ resid ∧ (resid - nblks * disk0Blksize) / disk0Blksize = resid / disk0Blksize - nblks ∧
      (resid - nblks * disk0Blksize) % disk0Blksize = 0 := by
  simp only [disk0Bufsize, disk0Blksize] at *
  exact ⟨min (resid / 4096) 4, by omega⟩

-- One round of disk0_io, which moves as many whole blocks as fit.
section Rounds

variable (d : Disk0) (iob : Iobuf) (blkno resid rounds : Nat) (rest : iob.resid = resid) (aligned : resid % disk0Blksize = 0)
  (inside : blkno + resid / disk0Blksize ≤ d.dBlocks) (left : resid ≠ 0)

include rest aligned inside left

theorem write_round :
    ∃ nblks bounce, 1 ≤ nblks ∧ nblks ≤ resid / disk0Blksize ∧ nblks * disk0Blksize ≤ resid ∧
      (resid - nblks * disk0Blksize) / disk0Blksize = resid / disk0Blksize - nblks ∧ (resid - nblks * disk0Blksize) % disk0Blksize = 0 ∧
      disk0Loop true d iob blkno resid (rounds + 1) =
        disk0Loop true
          ((d.fill bounce).store (memcpy d.ide.image (blkno * disk0Blksize) (iob.buf.from iob.base) (nblks * disk0Blksize)))
          (iob.advance (nblks * disk0Blksize)) (blkno + nblks) (resid - nblks * disk0Blksize) rounds := by
  obtain ⟨nblks, some, fits, few, chunk, room, later, still⟩ := chunk_bounds resid aligned left
  have small := d.small
  have blocks : d.dBlocks = d.ide.size / 8 := rfl
  have count : nblks * disk0Blksize / disk0Blksize % 2 ^ 32 = nblks := by
    rw [Nat.mul_div_cancel _ (by decide)]
    omega
  have next : (blkno + nblks) % 2 ^ 32 = blkno + nblks := by omega
  obtain ⟨ret, moved⟩ := move_out iob d.buffer disk0Bufsize (by rw [rest, chunk]; simp only [disk0Blksize]; omega)
  rw [rest, chunk] at moved
  have sane : decide (nblks * disk0Blksize ≠ 0 ∧ nblks * disk0Blksize ≤ resid ∧ nblks * disk0Blksize % disk0Blksize = 0) = true := by
    refine decide_eq_true ⟨?_, room, Nat.mul_mod_left _ _⟩
    simp only [disk0Blksize]
    omega
  have written := write_blks_spec (d.fill (memcpy d.buffer 0 (iob.buf.from iob.base) (nblks * disk0Blksize))) blkno nblks
    (by rw [Disk0.fill_blocks]; omega) fits
  have copied := memcpy_bounced d.ide.image (iob.buf.from iob.base) d.buffer (blkno * disk0Blksize) (nblks * disk0Blksize)
  refine ⟨nblks, memcpy d.buffer 0 (iob.buf.from iob.base) (nblks * disk0Blksize), some, few, room, later, still, ?_⟩
  rw [disk0Loop, if_neg left, if_pos rfl, moved, ok_bind]
  simp only [sane, check_true, ok_bind, count, written, next]
  rw [Disk0.fill_image, ← copied]
  rfl

theorem read_round :
    ∃ nblks bounce, 1 ≤ nblks ∧ nblks ≤ resid / disk0Blksize ∧ nblks * disk0Blksize ≤ resid ∧
      (resid - nblks * disk0Blksize) / disk0Blksize = resid / disk0Blksize - nblks ∧ (resid - nblks * disk0Blksize) % disk0Blksize = 0 ∧
      disk0Loop false d iob blkno resid (rounds + 1) =
        disk0Loop false (d.fill bounce)
          (Iobuf.advance { iob with buf := memcpy iob.buf iob.base (d.ide.image.from (blkno * disk0Blksize)) (nblks * disk0Blksize) }
            (nblks * disk0Blksize)) (blkno + nblks) (resid - nblks * disk0Blksize) rounds := by
  obtain ⟨nblks, some, fits, few, chunk, room, later, still⟩ := chunk_bounds resid aligned left
  have small := d.small
  have blocks : d.dBlocks = d.ide.size / 8 := rfl
  have count : nblks * disk0Blksize / disk0Blksize % 2 ^ 32 = nblks := by
    rw [Nat.mul_div_cancel _ (by decide)]
    omega
  have next : (blkno + nblks) % 2 ^ 32 = blkno + nblks := by omega
  have alen : (if disk0Bufsize > resid then resid else disk0Bufsize) = nblks * disk0Blksize := by
    rw [← chunk]
    split <;> omega
  have whole : min iob.resid (nblks * disk0Blksize) = nblks * disk0Blksize := by
    rw [rest]
    exact Nat.min_eq_right room
  have read := read_blks_spec d blkno nblks (by omega) fits
  obtain ⟨ret, moved⟩ := move_in iob (memcpy d.buffer 0 (d.ide.image.from (blkno * disk0Blksize)) (nblks * disk0Blksize))
    (nblks * disk0Blksize) (by rw [whole]; simp only [disk0Blksize]; omega)
  rw [whole, memcpy_bounced] at moved
  refine ⟨nblks, memcpy d.buffer 0 (d.ide.image.from (blkno * disk0Blksize)) (nblks * disk0Blksize), some, few, room, later, still, ?_⟩
  rw [disk0Loop, if_neg left, if_neg (by decide)]
  simp only [alen, count, read, ok_bind, Disk0.fill, moved, Nat.mul_mod_left, and_self, decide_true, check_true, next]

end Rounds

theorem write_loop_spec (rounds : Nat) (d : Disk0) (iob : Iobuf) (blkno resid : Nat) (rest : iob.resid = resid)
    (aligned : resid % disk0Blksize = 0) (inside : blkno + resid / disk0Blksize ≤ d.dBlocks) (enough : resid / disk0Blksize < rounds) :
    ∃ bounce, disk0Loop true d iob blkno resid rounds =
      .ok (iob.advance resid, (d.store (memcpy d.ide.image (blkno * disk0Blksize) (iob.buf.from iob.base) resid)).fill bounce) := by
  induction rounds generalizing d iob blkno resid with
  | zero => exact absurd enough (Nat.not_lt_zero _)
  | succ rounds ih =>
      by_cases done : resid = 0
      · subst done
        refine ⟨d.buffer, ?_⟩
        rw [disk0Loop, if_pos rfl, memcpy_none]
        rfl
      · obtain ⟨nblks, bounce, some, few, room, later, still, round⟩ := write_round d iob blkno resid rounds rest aligned inside done
        obtain ⟨last, looped⟩ := ih
          ((d.fill bounce).store (memcpy d.ide.image (blkno * disk0Blksize) (iob.buf.from iob.base) (nblks * disk0Blksize)))
          (iob.advance (nblks * disk0Blksize)) (blkno + nblks) (resid - nblks * disk0Blksize) (by rw [Iobuf.advance, rest]) still
          (by rw [later, Disk0.store_blocks, Disk0.fill_blocks]; omega) (by rw [later]; omega)
        have joined := memcpy_append d.ide.image (iob.buf.from iob.base) (blkno * disk0Blksize) (nblks * disk0Blksize) (resid - nblks * disk0Blksize)
        rw [from_from, ← Nat.add_mul, Nat.add_sub_cancel' room] at joined
        refine ⟨last, ?_⟩
        rw [round, looped, ← joined]
        simp only [Iobuf.advance, Disk0.store, Disk0.fill, rest, Nat.add_assoc, Nat.add_sub_cancel' room, Nat.sub_self]

theorem read_loop_spec (rounds : Nat) (d : Disk0) (iob : Iobuf) (blkno resid : Nat) (rest : iob.resid = resid)
    (aligned : resid % disk0Blksize = 0) (inside : blkno + resid / disk0Blksize ≤ d.dBlocks) (enough : resid / disk0Blksize < rounds) :
    ∃ bounce, disk0Loop false d iob blkno resid rounds =
      .ok (Iobuf.advance { iob with buf := memcpy iob.buf iob.base (d.ide.image.from (blkno * disk0Blksize)) resid } resid, d.fill bounce) := by
  induction rounds generalizing d iob blkno resid with
  | zero => exact absurd enough (Nat.not_lt_zero _)
  | succ rounds ih =>
      by_cases done : resid = 0
      · subst done
        refine ⟨d.buffer, ?_⟩
        rw [disk0Loop, if_pos rfl, memcpy_none]
        rfl
      · obtain ⟨nblks, bounce, some, few, room, later, still, round⟩ := read_round d iob blkno resid rounds rest aligned inside done
        obtain ⟨last, looped⟩ := ih (d.fill bounce)
          (Iobuf.advance { iob with buf := memcpy iob.buf iob.base (d.ide.image.from (blkno * disk0Blksize)) (nblks * disk0Blksize) }
            (nblks * disk0Blksize)) (blkno + nblks) (resid - nblks * disk0Blksize) (by simp only [Iobuf.advance, rest]) still
          (by rw [later, Disk0.fill_blocks]; omega) (by rw [later]; omega)
        have joined := memcpy_append iob.buf (d.ide.image.from (blkno * disk0Blksize)) iob.base (nblks * disk0Blksize) (resid - nblks * disk0Blksize)
        rw [from_from, ← Nat.add_mul, Nat.add_sub_cancel' room] at joined
        refine ⟨last, ?_⟩
        rw [round, looped, ← joined]
        simp only [Iobuf.advance, Disk0.fill, rest, Nat.add_assoc, Nat.add_sub_cancel' room, Nat.sub_self]

-- A transfer of whole blocks inside the disk.
section Io

variable (d : Disk0) (buf : Bytes) (base blkno nblks : Nat) (inside : blkno + nblks ≤ d.dBlocks)

include inside

theorem io_enters (iob : Iobuf) (offset : iob.offset = blkno * disk0Blksize) (resid : iob.resid = nblks * disk0Blksize) (write : Bool) :
    disk0Io d iob write =
      if nblks = 0 then .ok (0, iob, d)
      else do
        let (iob, d) ← disk0Loop write d iob blkno (nblks * disk0Blksize) (nblks + 1)
        return (0, iob, d) := by
  have small := d.small
  have blocks : d.dBlocks = d.ide.size / 8 := rfl
  have first : iob.offset / disk0Blksize % 2 ^ 32 = blkno := by
    rw [offset, Nat.mul_div_cancel _ (by decide)]
    omega
  have count : iob.resid / disk0Blksize % 2 ^ 32 = nblks := by
    rw [resid, Nat.mul_div_cancel _ (by decide)]
    omega
  have whole : ¬ (iob.offset % disk0Blksize ≠ 0 ∨ iob.resid % disk0Blksize ≠ 0) := by
    simp only [offset, resid, Nat.mul_mod_left, ne_eq, not_true_eq_false, or_self, not_false_eq_true]
  have fits : ¬ (blkno + nblks) % 2 ^ 32 > d.dBlocks := by omega
  rw [disk0Io]
  simp only [first, count]
  rw [if_neg whole, if_neg fits, resid]
  rfl

theorem disk0_writes :
    ∃ iob bounce, disk0Io d (iobufInit buf base (nblks * disk0Blksize) (blkno * disk0Blksize)) true =
      .ok (0, iob, (d.store (memcpy d.ide.image (blkno * disk0Blksize) (buf.from base) (nblks * disk0Blksize))).fill bounce) ∧
        iob.buf = buf := by
  rw [io_enters d blkno nblks inside _ rfl rfl]
  by_cases none : nblks = 0
  · rw [if_pos none, none, Nat.zero_mul, memcpy_none]
    exact ⟨_, d.buffer, rfl, rfl⟩
  · obtain ⟨bounce, looped⟩ := write_loop_spec (nblks + 1) d (iobufInit buf base (nblks * disk0Blksize) (blkno * disk0Blksize)) blkno
      (nblks * disk0Blksize) rfl (Nat.mul_mod_left _ _) (by rw [Nat.mul_div_cancel _ (by decide)]; exact inside)
      (by rw [Nat.mul_div_cancel _ (by decide)]; omega)
    rw [if_neg none, looped, ok_bind]
    exact ⟨_, bounce, rfl, rfl⟩

theorem disk0_reads :
    ∃ iob bounce, disk0Io d (iobufInit buf base (nblks * disk0Blksize) (blkno * disk0Blksize)) false = .ok (0, iob, d.fill bounce) ∧
      iob.buf = memcpy buf base (d.ide.image.from (blkno * disk0Blksize)) (nblks * disk0Blksize) := by
  rw [io_enters d blkno nblks inside _ rfl rfl]
  by_cases none : nblks = 0
  · rw [if_pos none, none, Nat.zero_mul, memcpy_none]
    exact ⟨_, d.buffer, rfl, rfl⟩
  · obtain ⟨bounce, looped⟩ := read_loop_spec (nblks + 1) d (iobufInit buf base (nblks * disk0Blksize) (blkno * disk0Blksize)) blkno
      (nblks * disk0Blksize) rfl (Nat.mul_mod_left _ _) (by rw [Nat.mul_div_cancel _ (by decide)]; exact inside)
      (by rw [Nat.mul_div_cancel _ (by decide)]; omega)
    rw [if_neg none, looped, ok_bind]
    exact ⟨_, bounce, rfl, rfl⟩

end Io

end Ucore.Dev
