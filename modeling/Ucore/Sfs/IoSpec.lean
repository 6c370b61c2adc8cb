import Mathlib.Tactic.Common
import Ucore.Sfs.SfsInode

set_option autoImplicit false

namespace Ucore.Sfs

open Ucore.Lib

-- What a mounted file system keeps: every block has a place on the device whose
-- byte offset fits in 32 bits, the freemap has whole blocks of bits with nothing
-- free past the last block, and the super block counts the free bits.
structure Mounted (sfs : SfsFs) : Prop where
  fits : sfs.super.blocks ≤ sfs.dev.dBlocks
  small : sfs.super.blocks ≤ 2 ^ 20
  nbits : sfs.freemap.nbits = sfsFreemapBlocks sfs.super * blkBits
  words : sfs.freemap.nwords * 32 = sfs.freemap.nbits
  past : ∀ b, b < sfs.freemap.nbits → sfs.super.blocks ≤ b → sfs.freemap.bit b = false
  superUsed : sfs.freemap.bit 0 = false
  unused : sfs.super.unusedBlocks = sfs.freemap.count sfs.freemap.nbits

-- Only the device's pending results moved on.
def Quiet (s s' : SfsFs) : Prop :=
  ∃ results, s' = { s with dev := { s.dev with results := results } } ∧ (s.dev.results = [] → results = [])

def SfsFs.store (s : SfsFs) (b : Nat) (bytes : Bytes) : SfsFs :=
  { s with dev := { s.dev with data := Function.update s.dev.data b bytes } }

theorem mounted_bits (sfs : SfsFs) (mounted : Mounted sfs) : sfs.super.blocks ≤ sfs.freemap.nbits := by
  rw [mounted.nbits, sfsFreemapBlocks, roundUpDiv, blkBits, blkSize]
  omega

theorem quiet_refl (s : SfsFs) : Quiet s s := ⟨s.dev.results, rfl, id⟩

theorem quiet_trans (s t u : SfsFs) (first : Quiet s t) (second : Quiet t u) : Quiet s u := by
  obtain ⟨_, rfl, quietFirst⟩ := first
  obtain ⟨results, rfl, quietSecond⟩ := second
  exact ⟨results, rfl, fun none => quietSecond (quietFirst none)⟩

theorem quiet_mounted (s s' : SfsFs) (quiet : Quiet s s') (mounted : Mounted s) : Mounted s' := by
  obtain ⟨_, rfl, _⟩ := quiet
  exact ⟨mounted.fits, mounted.small, mounted.nbits, mounted.words, mounted.past, mounted.superUsed, mounted.unused⟩

theorem quiet_data (s s' : SfsFs) (quiet : Quiet s s') : s'.dev.data = s.dev.data := by
  obtain ⟨_, rfl, _⟩ := quiet
  rfl

theorem rwblock_spec (sfs : SfsFs) (buf : Bytes) (b : Nat) (write checked : Bool) (mounted : Mounted sfs)
    (named : b ≠ 0 ∨ checked = false) (bound : b < sfs.super.blocks) :
    ∃ ret s, Quiet sfs s ∧ (sfs.dev.results = [] → ret = 0) ∧
      sfsRwblockNolock sfs buf b write checked = .ok (ret, if ret = 0 ∧ write = false then sfs.dev.data b else buf,
        if ret = 0 ∧ write = true then s.store b buf else s) := by
  have offset : b * blkSize % 2 ^ 32 = b * blkSize := by
    have small := mounted.small
    simp only [blkSize]
    omega
  have aligned : b * blkSize % blkSize = 0 := Nat.mul_mod_left b blkSize
  have place : b * blkSize / blkSize = b := Nat.mul_div_cancel b (by decide)
  have inside : ¬ sfs.dev.dBlocks < b + 1 := by
    have fits := mounted.fits
    omega
  have allowed : (b ≠ 0 ∨ checked = false) ∧ b < sfs.super.blocks := ⟨named, bound⟩
  have checkedOk : check ((b ≠ 0 ∨ !checked) ∧ b < sfs.super.blocks) Fault.assertFailed = .ok () := by
    simp only [check]
    rw [if_pos (by simpa using allowed)]
  simp only [sfsRwblockNolock, checkedOk, ok_bind, pure_ok, offset, dopIo, aligned, place, inside, ne_eq, not_true_eq_false, or_self,
    if_false]
  cases pending : sfs.dev.results with
  | nil =>
      refine ⟨0, sfs, quiet_refl sfs, fun _ => rfl, ?_⟩
      cases write
      · simp
      · simp [SfsFs.store, pending]
  | cons ret rest =>
      refine ⟨ret, { sfs with dev := { sfs.dev with results := rest } }, ⟨rest, rfl, fun none => ?_⟩, fun none => ?_, ?_⟩
      · rw [pending] at none
        cases none
      · cases none
      · by_cases success : ret = 0
        · cases write
          · simp [success]
          · simp [success, SfsFs.store]
        · simp [success]

theorem rbuf_spec (sfs : SfsFs) (buf : Bytes) (len b offset : Nat) (mounted : Mounted sfs) (named : b ≠ 0)
    (bound : b < sfs.super.blocks) (start : offset < 4096) (stop : offset + len ≤ 4096) :
    ∃ ret s, Quiet sfs s ∧ (sfs.dev.results = [] → ret = 0) ∧
      sfsRbuf sfs buf len b offset = .ok (ret, if ret = 0 then memcpy buf 0 ((sfs.dev.data b).from offset) len else buf, s) := by
  obtain ⟨ret, s, quiet, success, read⟩ := rwblock_spec sfs zeroBytes b false true mounted (Or.inl named) bound
  refine ⟨ret, s, quiet, success, ?_⟩
  by_cases zero : ret = 0
  · simp [sfsRbuf, blkSize, start, stop, read, zero]
  · simp [sfsRbuf, blkSize, start, stop, read, zero]

theorem wbuf_spec (sfs : SfsFs) (buf : Bytes) (len b offset : Nat) (mounted : Mounted sfs) (named : b ≠ 0)
    (bound : b < sfs.super.blocks) (start : offset < 4096) (stop : offset + len ≤ 4096) :
    ∃ ret s, Quiet sfs s ∧ (sfs.dev.results = [] → ret = 0) ∧
      sfsWbuf sfs buf len b offset =
        .ok (ret, buf, if ret = 0 then s.store b (memcpy (sfs.dev.data b) offset buf len) else s) := by
  obtain ⟨ret, s, quiet, success, read⟩ := rwblock_spec sfs zeroBytes b false true mounted (Or.inl named) bound
  by_cases zero : ret = 0
  · have boundS : b < s.super.blocks := by
      obtain ⟨_, rfl, _⟩ := quiet
      exact bound
    obtain ⟨ret', s', quiet', success', written⟩ := rwblock_spec s (memcpy (sfs.dev.data b) offset buf len) b true true
      (quiet_mounted sfs s quiet mounted) (Or.inl named) boundS
    refine ⟨ret', s', quiet_trans sfs s s' quiet quiet', fun none => success' ?_, ?_⟩
    · obtain ⟨_, rfl, still⟩ := quiet
      exact still none
    · simp [sfsWbuf, blkSize, start, stop, read, zero, written]
  · exact ⟨ret, s, quiet, success, by simp [sfsWbuf, blkSize, start, stop, read, zero]⟩

theorem clear_block_spec (sfs : SfsFs) (b : Nat) (mounted : Mounted sfs) (named : b ≠ 0) (bound : b < sfs.super.blocks) :
    ∃ ret s, Quiet sfs s ∧ (sfs.dev.results = [] → ret = 0) ∧
      sfsClearBlock sfs b 1 = .ok (ret, if ret = 0 then s.store b zeroBytes else s) := by
  obtain ⟨ret, s, quiet, success, written⟩ := rwblock_spec sfs zeroBytes b true true mounted (Or.inl named) bound
  refine ⟨ret, s, quiet, success, ?_⟩
  by_cases zero : ret = 0
  · simp [sfsClearBlock, written, zero]
  · simp [sfsClearBlock, written, zero]

theorem block_inuse_spec (sfs : SfsFs) (b : Nat) (mounted : Mounted sfs) (named : b ≠ 0) (bound : b < sfs.super.blocks) :
    sfsBlockInuse sfs b = .ok (!sfs.freemap.bit b) := by
  have inside := mounted_bits sfs mounted
  simp [sfsBlockInuse, named, bound, bitmap_test_spec sfs.freemap b (by omega)]

-- One block leaves the freemap; its content is given.
structure Taken (s s' : SfsFs) (ino : Nat) (data : Nat → Bytes) : Prop where
  super : s'.super = { s.super with unusedBlocks := s.super.unusedBlocks - 1 }
  available : 0 < s.super.unusedBlocks
  dirty : s'.superDirty = true
  nbits : s'.freemap.nbits = s.freemap.nbits
  nwords : s'.freemap.nwords = s.freemap.nwords
  bits : ∀ j, s'.freemap.bit j = (s.freemap.bit j && j != ino)
  free : s.freemap.bit ino = true
  named : ino ≠ 0
  bound : ino < s.super.blocks
  dBlocks : s'.dev.dBlocks = s.dev.dBlocks
  data : s'.dev.data = data
  results : s.dev.results = [] → s'.dev.results = []

structure Released (s s' : SfsFs) (ino : Nat) : Prop where
  super : s'.super = { s.super with unusedBlocks := s.super.unusedBlocks + 1 }
  dirty : s'.superDirty = true
  nbits : s'.freemap.nbits = s.freemap.nbits
  nwords : s'.freemap.nwords = s.freemap.nwords
  bits : ∀ j, s'.freemap.bit j = (s.freemap.bit j || j == ino)
  dev : s'.dev = s.dev

theorem taken_mounted (s s' : SfsFs) (ino : Nat) (data : Nat → Bytes) (taken : Taken s s' ino data) (mounted : Mounted s) :
    Mounted s' := by
  have inside := mounted_bits s mounted
  have bound := taken.bound
  constructor
  · rw [taken.super, taken.dBlocks]
    exact mounted.fits
  · rw [taken.super]
    exact mounted.small
  · rw [taken.nbits, taken.super]
    exact mounted.nbits
  · rw [taken.nwords, taken.nbits]
    exact mounted.words
  · intro b inBits pastEnd
    rw [taken.nbits] at inBits
    rw [taken.super] at pastEnd
    simp [taken.bits b, mounted.past b inBits pastEnd]
  · simp [taken.bits 0, mounted.superUsed]
  · have fewer := count_cleared s.freemap s'.freemap s.freemap.nbits ino (by omega) taken.free taken.bits
    rw [taken.super, taken.nbits]
    have unused := mounted.unused
    simp only
    omega

theorem released_mounted (s s' : SfsFs) (ino : Nat) (released : Released s s' ino) (mounted : Mounted s) (named : ino ≠ 0)
    (bound : ino < s.super.blocks) (used : s.freemap.bit ino = false) : Mounted s' := by
  have inside := mounted_bits s mounted
  constructor
  · rw [released.super, released.dev]
    exact mounted.fits
  · rw [released.super]
    exact mounted.small
  · rw [released.nbits, released.super]
    exact mounted.nbits
  · rw [released.nwords, released.nbits]
    exact mounted.words
  · intro b inBits pastEnd
    rw [released.nbits] at inBits
    rw [released.super] at pastEnd
    have apart : b ≠ ino := by
      simp only at pastEnd
      omega
    simp [released.bits b, mounted.past b inBits pastEnd, apart]
  · simp [released.bits 0, mounted.superUsed, named.symm]
  · have more := count_set s.freemap s'.freemap s.freemap.nbits ino (by omega) used released.bits
    rw [released.super, released.nbits, more, mounted.unused]

theorem block_alloc_spec (sfs : SfsFs) (mounted : Mounted sfs) :
    (sfsBlockAlloc sfs = .ok (eNoMem, 0, sfs) ∧ sfs.super.unusedBlocks = 0) ∨
      ∃ ret ino s', sfsBlockAlloc sfs = .ok (ret, ino, s') ∧ (sfs.dev.results = [] → ret = 0) ∧
        Taken sfs s' ino (if ret = 0 then Function.update sfs.dev.data ino zeroBytes else sfs.dev.data) := by
  have inside := mounted_bits sfs mounted
  rcases bitmap_alloc_spec sfs.freemap with ⟨none, clear⟩ | ⟨ino, freemap, found, bound, on, _, nbits, nwords, bits⟩
  · refine Or.inl ⟨by simp [sfsBlockAlloc, none, eNoMem], ?_⟩
    rw [mounted.unused, count_zero]
    exact fun j less => clear j (by rw [mounted.words]; exact less)
  · have inBits : ino < sfs.freemap.nbits := by
      rw [← mounted.words]
      exact bound
    have inBlocks : ino < sfs.super.blocks := by
      by_contra pastEnd
      have off := mounted.past ino inBits (by omega)
      simp [on] at off
    have named : ino ≠ 0 := by
      rintro rfl
      simp [mounted.superUsed] at on
    have available : 0 < sfs.super.unusedBlocks := by
      have fewer := count_cleared sfs.freemap freemap sfs.freemap.nbits ino inBits on bits
      have unused := mounted.unused
      omega
    let marked : SfsFs := { sfs with
      freemap := freemap
      super := { sfs.super with unusedBlocks := sfs.super.unusedBlocks - 1 }
      superDirty := true }
    have takenMark : Taken sfs marked ino sfs.dev.data :=
      ⟨rfl, available, rfl, nbits, nwords, bits, on, named, inBlocks, rfl, rfl, id⟩
    have mountedMark := taken_mounted sfs marked ino sfs.dev.data takenMark mounted
    have inuse := block_inuse_spec marked ino mountedMark named inBlocks
    obtain ⟨ret, s, quiet, success, cleared⟩ := clear_block_spec marked ino mountedMark named inBlocks
    refine Or.inr ⟨ret, ino, if ret = 0 then s.store ino zeroBytes else s, ?_, success, ?_⟩
    · simp only [sfsBlockAlloc, found, ok_bind, pure_ok, available, decide_true, check_true, ne_eq, not_true_eq_false, if_false]
      have off : marked.freemap.bit ino = false := by simp [marked, bits ino]
      rw [off] at inuse
      rw [inuse]
      simp only [ok_bind, Bool.not_false, check_true]
      rw [cleared]
      rfl
    · obtain ⟨results, rfl, still⟩ := quiet
      by_cases zero : ret = 0
      · simp only [zero, if_true]
        exact ⟨rfl, available, rfl, nbits, nwords, bits, on, named, inBlocks, rfl, rfl, still⟩
      · simp only [zero, if_false]
        exact ⟨rfl, available, rfl, nbits, nwords, bits, on, named, inBlocks, rfl, rfl, still⟩

theorem block_free_spec (sfs : SfsFs) (ino : Nat) (mounted : Mounted sfs) (named : ino ≠ 0) (bound : ino < sfs.super.blocks)
    (used : sfs.freemap.bit ino = false) : ∃ s', sfsBlockFree sfs ino = .ok s' ∧ Released sfs s' ino := by
  have inside := mounted_bits sfs mounted
  obtain ⟨freed, result, nbits, nwords, bits⟩ := bitmap_free_spec sfs.freemap ino (by omega) used
  refine ⟨{ sfs with freemap := freed, super := { sfs.super with unusedBlocks := sfs.super.unusedBlocks + 1 }, superDirty := true },
    ?_, ⟨rfl, rfl, nbits, nwords, bits, rfl⟩⟩
  simp [sfsBlockFree, block_inuse_spec sfs ino mounted named bound, used, result]

end Ucore.Sfs
