import Ucore.Sfs.Ownership

set_option autoImplicit false

namespace Ucore.Sfs

open Ucore.Lib

-- A volume of 32 blocks with n empty files: the super block, the root inode, the
-- freemap and the inodes of the files come first, all other blocks are free.
def freshFreemap (used : Nat) : Bitmap := ⟨32768, 1024, fun w => if w = 0 then BitVec.allOnes 32 <<< used else 0#32⟩

def freshSuper (used : Nat) : SfsSuper := ⟨sfsMagic, 32, 32 - used, fun _ => 0⟩

def emptyFile (ino : Nat) : SfsInode := ⟨⟨0, typeFile, 1, 0, fun _ => 0, 0⟩, ino, false⟩

def freshData (used b : Nat) : Bytes :=
  if b = blknSuper then memcpy zeroBytes 0 (encodeSuper (freshSuper used)) superSize
  else if b = blknFreemap then bitmapData (freshFreemap used)
  else if b < 3 then zeroBytes
  else memcpy zeroBytes 0 (encodeInode (emptyFile b).din) diskInodeSize

def freshVolume (n : Nat) : Volume n :=
  ⟨⟨freshSuper (3 + n), ⟨32, freshData (3 + n), []⟩, freshFreemap (3 + n), false⟩, fun file => emptyFile (3 + file)⟩

def freshReserved (n b : Nat) : Prop := b < 3 + n

theorem fresh_bit (used i : Nat) : (freshFreemap used).bit i = (decide (used ≤ i) && decide (i < 32)) := by
  by_cases first : i / 32 = 0
  · have small : i < 32 := by omega
    have place : i % 32 = i := Nat.mod_eq_of_lt small
    by_cases above : used ≤ i
    · have inside : i - used < 32 := by omega
      have ones : (BitVec.allOnes 32 <<< used).getLsbD i = true := by
        rw [BitVec.getLsbD_shiftLeft, BitVec.getLsbD_allOnes]
        simp [small, above, inside]
      simp only [Bitmap.bit, freshFreemap, wordBits, first, place, if_true, ones, small, above, decide_true, Bool.and_self]
    · simp [Bitmap.bit, freshFreemap, wordBits, first, place, small, above]
  · have large : ¬ i < 32 := by omega
    simp [Bitmap.bit, freshFreemap, wordBits, first, large]

theorem fresh_count (used bound : Nat) (few : used ≤ 32) : (freshFreemap used).count bound = min bound 32 - used := by
  induction bound with
  | zero => simp [Bitmap.count]
  | succ bound ih =>
      rw [Bitmap.count, ih, fresh_bit]
      by_cases above : used ≤ bound
      · by_cases small : bound < 32
        · simp [above, small]
          omega
        · simp [small]
          omega
      · simp [above]
        omega

theorem fresh_slot (s : SfsFs) (ino k : Nat) : slot s (emptyFile ino).din k = 0 := by
  simp [slot, emptyFile]

theorem fresh_refers (s : SfsFs) (ino b : Nat) : ¬ Refers s (emptyFile ino).din b := by
  rintro (⟨atIndirect, named⟩ | ⟨k, below, _⟩)
  · exact named atIndirect
  · exact absurd below (Nat.not_lt_zero k)

theorem fresh_image (n : Nat) (few : n < 29) : (freshVolume n).Image (freshReserved n) := by
  have used : 3 + n ≤ 32 := by omega
  refine ⟨⟨⟨le_refl 32, ?_, ?_, ?_, fun b _ past => ?_, ?_, ?_⟩, ?_, fun file => ?_⟩, fun b bound off => ?_, fun b kept => ?_, rfl⟩
  · simp [freshVolume, freshSuper]
  · simp [freshVolume, freshFreemap, freshSuper, sfsFreemapBlocks, roundUpDiv, blkBits, blkSize]
  · simp [freshVolume, freshFreemap]
  · have large : ¬ b < 32 := by
      simp only [freshVolume, freshSuper] at past
      omega
    simp [freshVolume, fresh_bit, large]
  · simp [freshVolume, fresh_bit]
  · simp only [freshVolume, fresh_count _ _ used]
    simp [freshSuper, freshFreemap]
  · simp only [freshReserved]
    omega
  · refine ⟨rfl, Nat.zero_le _, fun k below => absurd below (Nat.not_lt_zero k), fun k _ _ => fresh_slot _ _ k,
      fun k _ below => absurd below (Nat.not_lt_zero k), fun k below => absurd below (Nat.not_lt_zero k),
      fun b refers => absurd refers (fresh_refers _ _ b), ?_⟩
    rintro b (kept | ⟨other, _, refers⟩)
    · simp only [freshReserved] at kept
      have low : ¬ 3 + n ≤ b := by omega
      exact ⟨by simp only [freshVolume, freshSuper]; omega, by simp [freshVolume, fresh_bit, low]⟩
    · exact absurd refers (fresh_refers _ _ b)
  · simp only [freshVolume, freshSuper] at bound
    simp only [freshVolume, fresh_bit, bound, decide_true, Bool.and_true, decide_eq_false_iff_not] at off
    exact Or.inl (by simp only [freshReserved]; omega)
  · simp only [freshReserved] at kept
    have low : ¬ 3 + n ≤ b := by omega
    exact ⟨by simp only [freshVolume, freshSuper]; omega, by simp [freshVolume, fresh_bit, low]⟩

end Ucore.Sfs
