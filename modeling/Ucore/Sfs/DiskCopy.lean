import Ucore.Sfs.Ownership
import Ucore.Sfs.SfsFs

set_option autoImplicit false

namespace Ucore.Sfs

open Ucore.Lib

-- The fields fit in the record on disk.
structure InodeFits (din : SfsDiskInode) : Prop where
  size : din.size < 2 ^ 32
  type : din.type < 2 ^ 16
  nlinks : din.nlinks < 2 ^ 16
  blocks : din.blocks < 2 ^ 32
  direct : ∀ k, din.direct k < 2 ^ 32
  indirect : din.indirect < 2 ^ 32

structure SuperFits (super : SfsSuper) : Prop where
  magic : super.magic < 2 ^ 32
  blocks : super.blocks < 2 ^ 32
  unusedBlocks : super.unusedBlocks < 2 ^ 32

theorem decode_encode_inode (din : SfsDiskInode) (old : Bytes) (fits : InodeFits din) :
    decodeInode (memcpy old 0 (encodeInode din) diskInodeSize) = din := by
  have field : ∀ offset n value, offset + n ≤ 64 → value < 256 ^ n → (∀ k, k < n → encodeInode din (offset + k) = toLe value k) →
      getLe (memcpy old 0 (encodeInode din) diskInodeSize) offset n = value := by
    intro offset n value inside small same
    rw [← get_le_to_le value n small]
    refine get_le_congr _ _ offset 0 n fun k below => ?_
    rw [memcpy_inside _ _ _ _ _ (Nat.zero_le _) (by simp only [diskInodeSize]; omega), Nat.sub_zero, same k below, Nat.zero_add]
  have direct : ∀ k : Fin 12, getLe (memcpy old 0 (encodeInode din) diskInodeSize) (12 + 4 * k) 4 = din.direct k := by
    intro k
    refine field (12 + 4 * k) 4 (din.direct k) (by omega) (fits.direct k) fun j below => ?_
    have index : (12 + 4 * (k : Nat) + j - 12) / 4 = k := by omega
    have byte : (12 + 4 * (k : Nat) + j - 12) % 4 = j := by omega
    simp only [encodeInode, index, byte]
    rw [if_neg (by omega), if_neg (by omega), if_neg (by omega), if_neg (by omega), dif_pos (by omega)]
  have size := field 0 4 din.size (by omega) fits.size fun k below => by
    simp only [encodeInode]
    rw [if_pos (by omega), Nat.zero_add]
  have type := field 4 2 din.type (by omega) fits.type fun k below => by
    simp only [encodeInode]
    rw [if_neg (by omega), if_pos (by omega), Nat.add_sub_cancel_left]
  have nlinks := field 6 2 din.nlinks (by omega) fits.nlinks fun k below => by
    simp only [encodeInode]
    rw [if_neg (by omega), if_neg (by omega), if_pos (by omega), Nat.add_sub_cancel_left]
  have blocks := field 8 4 din.blocks (by omega) fits.blocks fun k below => by
    simp only [encodeInode]
    rw [if_neg (by omega), if_neg (by omega), if_neg (by omega), if_pos (by omega), Nat.add_sub_cancel_left]
  have indirect := field 60 4 din.indirect (by omega) fits.indirect fun k below => by
    simp only [encodeInode]
    rw [if_neg (by omega), if_neg (by omega), if_neg (by omega), if_neg (by omega), dif_neg (by omega), Nat.add_sub_cancel_left]
  simp only [decodeInode, size, type, nlinks, blocks, indirect, direct]

theorem decode_encode_super (super : SfsSuper) (old : Bytes) (fits : SuperFits super) :
    decodeSuper (memcpy old 0 (encodeSuper super) superSize) = super := by
  have inside : ∀ offset n, offset + n ≤ 44 →
      getLe (memcpy old 0 (encodeSuper super) superSize) offset n = getLe (encodeSuper super) offset n := by
    intro offset n bound
    refine get_le_congr _ _ offset offset n fun k below => ?_
    rw [memcpy_inside _ _ _ _ _ (Nat.zero_le _) (by simp only [superSize]; omega), Nat.sub_zero]
  have magic : getLe (encodeSuper super) 0 4 = super.magic := by
    rw [encodeSuper, get_le_memcpy_other _ _ _ _ _ _ (by omega), get_le_memcpy_other _ _ _ _ _ _ (by omega),
      get_le_memcpy_other _ _ _ _ _ _ (by omega), get_le_memcpy_same, get_le_to_le _ _ fits.magic]
  have blocks : getLe (encodeSuper super) 4 4 = super.blocks := by
    rw [encodeSuper, get_le_memcpy_other _ _ _ _ _ _ (by omega), get_le_memcpy_other _ _ _ _ _ _ (by omega),
      get_le_memcpy_same, get_le_to_le _ _ fits.blocks]
  have unused : getLe (encodeSuper super) 8 4 = super.unusedBlocks := by
    rw [encodeSuper, get_le_memcpy_other _ _ _ _ _ _ (by omega), get_le_memcpy_same, get_le_to_le _ _ fits.unusedBlocks]
  have info : (fun i : Fin 32 => memcpy old 0 (encodeSuper super) superSize (12 + i)) = super.info := by
    funext i
    rw [memcpy_inside _ _ _ _ _ (Nat.zero_le _) (by simp only [superSize]; omega), Nat.sub_zero, encodeSuper,
      memcpy_inside _ _ _ _ _ (by omega) (by omega), Nat.add_sub_cancel_left]
    simp
  simp only [decodeSuper, inside 0 4 (by omega), inside 4 4 (by omega), inside 8 4 (by omega), magic, blocks, unused, info]

-- A word of the freemap as its blocks on disk have it.
def diskWord (data : Nat → Bytes) (w : Nat) : BitVec 32 :=
  BitVec.ofNat 32 (getLe (data (blknFreemap + w / 1024)) (w % 1024 * 4) 4)

theorem bitmap_data_word (b : Bitmap) (w : Nat) : getLe (bitmapData b) (4 * w) 4 = (b.map w).toNat := by
  rw [← get_le_to_le (b.map w).toNat 4 (b.map w).isLt]
  refine get_le_congr _ _ (4 * w) 0 4 fun k below => ?_
  have word : (4 * w + k) / 4 = w := by omega
  have byte : (4 * w + k) % 4 = k := by omega
  rw [bitmapData, word, byte, Nat.zero_add]

-- Writes of the device that leave the rest of the file system alone.
structure Wrote (s s' : SfsFs) (there : Nat → Prop) : Prop where
  super : s'.super = s.super
  freemap : s'.freemap = s.freemap
  superDirty : s'.superDirty = s.superDirty
  dBlocks : s'.dev.dBlocks = s.dev.dBlocks
  data : ∀ b, ¬ there b → s'.dev.data b = s.dev.data b
  results : s.dev.results = [] → s'.dev.results = []

theorem wrote_refl (s : SfsFs) (there : Nat → Prop) : Wrote s s there := ⟨rfl, rfl, rfl, rfl, fun _ _ => rfl, id⟩

theorem wrote_trans (s t u : SfsFs) (there : Nat → Prop) (first : Wrote s t there) (second : Wrote t u there) : Wrote s u there :=
  ⟨second.super.trans first.super, second.freemap.trans first.freemap, second.superDirty.trans first.superDirty,
    second.dBlocks.trans first.dBlocks, fun b away => (second.data b away).trans (first.data b away),
    fun none => second.results (first.results none)⟩

theorem wrote_weaken (s t : SfsFs) (there more : Nat → Prop) (wrote : Wrote s t there) (wider : ∀ b, there b → more b) : Wrote s t more :=
  ⟨wrote.super, wrote.freemap, wrote.superDirty, wrote.dBlocks, fun b away => wrote.data b fun inside => away (wider b inside),
    wrote.results⟩

theorem quiet_store_wrote (s t : SfsFs) (b : Nat) (bytes : Bytes) (quiet : Quiet s t) : Wrote s (t.store b bytes) (· = b) := by
  obtain ⟨_, rfl, still⟩ := quiet
  exact ⟨rfl, rfl, rfl, rfl, fun c apart => by simp [SfsFs.store, apart], still⟩

theorem quiet_wrote (s t : SfsFs) (there : Nat → Prop) (quiet : Quiet s t) : Wrote s t there := by
  obtain ⟨_, rfl, still⟩ := quiet
  exact ⟨rfl, rfl, rfl, rfl, fun _ _ => rfl, still⟩

theorem wrote_mounted (s t : SfsFs) (there : Nat → Prop) (wrote : Wrote s t there) (mounted : Mounted s) : Mounted t := by
  constructor
  · rw [wrote.super, wrote.dBlocks]
    exact mounted.fits
  · rw [wrote.super]
    exact mounted.small
  · rw [wrote.freemap, wrote.super]
    exact mounted.nbits
  · rw [wrote.freemap]
    exact mounted.words
  · rw [wrote.freemap, wrote.super]
    exact mounted.past
  · rw [wrote.freemap]
    exact mounted.superUsed
  · rw [wrote.freemap, wrote.super]
    exact mounted.unused

theorem wblock_spec (buf : Bytes) (b nblks : Nat) (s : SfsFs) (mounted : Mounted s) (named : b ≠ 0) (bound : b + nblks ≤ s.super.blocks) :
    ∃ ret t, sfsWblock s buf b nblks = .ok (ret, t) ∧ Wrote s t (fun c => b ≤ c ∧ c < b + nblks) ∧ (s.dev.results = [] → ret = 0) ∧
      (ret = 0 → ∀ k, k < nblks → t.dev.data (b + k) = buf.from (k * 4096)) := by
  induction nblks generalizing buf b s with
  | zero => exact ⟨0, s, rfl, wrote_refl s _, fun _ => rfl, fun _ k below => absurd below (Nat.not_lt_zero k)⟩
  | succ nblks ih =>
      obtain ⟨ret, t, quiet, success, written⟩ := rwblock_spec s buf b true true mounted (Or.inl named) (by omega)
      by_cases zero : ret = 0
      · have one := quiet_store_wrote s t b buf quiet
        obtain ⟨ret', u, rest, wrote, success', content⟩ := ih (buf.from blkSize) (b + 1) (t.store b buf)
          (wrote_mounted _ _ _ one mounted) (by omega) (by rw [one.super]; omega)
        refine ⟨ret', u, by simpa [sfsWblock, written, zero] using rest, ?_, fun none => success' (one.results none), fun done k below => ?_⟩
        · refine wrote_trans s (t.store b buf) u _ (wrote_weaken _ _ _ _ one ?_) (wrote_weaken _ _ _ _ wrote ?_)
          · intro c here
            omega
          · intro c inside
            omega
        · cases k with
          | zero =>
              have first := wrote.data b (by omega)
              have start : buf.from (0 * 4096) = buf := funext fun i => by simp [Bytes.from]
              rw [Nat.add_zero, first, start]
              simp [SfsFs.store]
          | succ k =>
              have later := content done k (by omega)
              rw [show b + (k + 1) = b + 1 + k by omega, later]
              funext i
              simp only [Bytes.from, blkSize]
              congr 1
              omega
      · exact ⟨ret, t, by simp [sfsWblock, written, zero], quiet_wrote s t _ quiet, success, fun done => absurd done zero⟩

end Ucore.Sfs
