import Ucore.Sfs.FileIo

set_option autoImplicit false

namespace Ucore.Sfs

open Ucore.Lib

-- The offsets and lengths for which sfs_io_nolock reaches its loop.
def Moves (offset : Int) (alen : Nat) : Prop := 0 ≤ offset ∧ offset < maxFileSize ∧ offset < toOff (offset + alen)

instance (offset : Int) (alen : Nat) : Decidable (Moves offset alen) :=
  inferInstanceAs (Decidable (0 ≤ offset ∧ offset < maxFileSize ∧ offset < toOff (offset + alen)))

def ioEnd (offset : Int) (alen : Nat) : Nat := (min (toOff (offset + alen)) maxFileSize).toNat

theorem moves_end (offset : Int) (alen : Nat) (moves : Moves offset alen) : offset.toNat < ioEnd offset alen := by
  obtain ⟨nonneg, below, before⟩ := moves
  simp only [ioEnd]
  omega

theorem io_nolock_idle (sfs : SfsFs) (sin : SfsInode) (buf : Bytes) (offset : Int) (alen : Nat) (write : Bool)
    (file : sin.din.type = typeFile) (idle : ¬ Moves offset alen) :
    ∃ ret, sfsIoNolock sfs sin buf offset alen write = .ok (ret, ⟨buf, 0, sfs, sin⟩) := by
  have regular : decide (sin.din.type ≠ typeDir) = true := by simp [file, typeFile, typeDir]
  by_cases invalid : offset < 0 ∨ (maxFileSize : Int) ≤ offset ∨ toOff (offset + alen) < offset
  · refine ⟨eInval, ?_⟩
    simp only [sfsIoNolock, regular, check_true, ok_bind, if_pos invalid, pure_ok]
  · have atEnd : offset = toOff (offset + alen) := by
      simp only [Moves] at idle
      omega
    refine ⟨0, ?_⟩
    simp only [sfsIoNolock, regular, check_true, ok_bind, if_neg invalid, pure_ok, if_pos atEnd]

theorem io_nolock_write (sfs : SfsFs) (sin : SfsInode) (buf : Bytes) (offset : Int) (alen : Nat)
    (file : sin.din.type = typeFile) (moves : Moves offset alen) :
    sfsIoNolock sfs sin buf offset alen true =
      ioLoop true (ioEnd offset alen) ⟨buf, 0, sfs, sin⟩ offset.toNat (ioEnd offset alen - offset.toNat + 1) := by
  have regular : decide (sin.din.type ≠ typeDir) = true := by simp [file, typeFile, typeDir]
  obtain ⟨nonneg, below, before⟩ := moves
  have valid : ¬ (offset < 0 ∨ (maxFileSize : Int) ≤ offset ∨ toOff (offset + alen) < offset) := by omega
  have some : ¬ offset = toOff (offset + alen) := by omega
  simp only [sfsIoNolock, regular, check_true, ok_bind, if_neg valid, if_neg some, pure_ok, Bool.not_true, Bool.false_eq_true,
    false_and, if_false, ioEnd]

theorem io_nolock_read (sfs : SfsFs) (sin : SfsInode) (buf : Bytes) (offset : Int) (alen : Nat)
    (file : sin.din.type = typeFile) (moves : Moves offset alen) :
    sfsIoNolock sfs sin buf offset alen false =
      if (sin.din.size : Int) ≤ offset then .ok (0, ⟨buf, 0, sfs, sin⟩)
      else ioLoop false (min (ioEnd offset alen) sin.din.size) ⟨buf, 0, sfs, sin⟩ offset.toNat
        (min (ioEnd offset alen) sin.din.size - offset.toNat + 1) := by
  have regular : decide (sin.din.type ≠ typeDir) = true := by simp [file, typeFile, typeDir]
  obtain ⟨nonneg, below, before⟩ := moves
  have valid : ¬ (offset < 0 ∨ (maxFileSize : Int) ≤ offset ∨ toOff (offset + alen) < offset) := by omega
  have some : ¬ offset = toOff (offset + alen) := by omega
  have last : (min (min (toOff (offset + alen)) maxFileSize) sin.din.size : Int).toNat =
      min (ioEnd offset alen) sin.din.size := by
    simp only [ioEnd]
    omega
  simp only [sfsIoNolock, regular, check_true, ok_bind, if_neg valid, if_neg some, pure_ok, Bool.not_false, true_and, if_true, last]

theorem grow_loop_spec (others : Nat → Prop) (superOthers : others 0) (rounds : Nat) (s : SfsFs) (i : SfsInode) (mounted : Mounted s)
    (map : FileMap s i.din others) :
    (growLoop s i i.din.blocks rounds = .error .indexOutOfRange ∧ 1036 < i.din.blocks + rounds ∧
      (s.dev.results = [] → needBlocks i.din (1036 - i.din.blocks) ≤ s.super.unusedBlocks)) ∨
    ∃ ret s' i' n, growLoop s i i.din.blocks rounds = .ok (ret, s', i') ∧ Grown others s s' i i' n ∧ n ≤ rounds ∧
      (ret = 0 → n = rounds) ∧ (ret ≠ 0 → n < rounds) ∧
      (s.dev.results = [] → ret ≠ 0 → ret = eNoMem ∧ i.din.blocks + n < 1036 ∧ s.super.unusedBlocks < needBlocks i.din (n + 1)) ∧
      ∀ pos, pos / 4096 < i.din.blocks → fileByte s' i'.din pos = fileByte s i.din pos := by
  induction rounds generalizing s i with
  | zero =>
      exact Or.inr ⟨0, s, i, 0, rfl, quiet_grown others s s i mounted map (quiet_refl s), by omega, fun _ => rfl,
        fun bad => absurd rfl bad, fun _ bad => absurd rfl bad, fun _ _ => rfl⟩
  | succ rounds ih =>
      have bounded := map.bounded
      by_cases full : i.din.blocks = 1036
      · refine Or.inl ⟨?_, by omega, fun _ => by simp [needBlocks, full]⟩
        rw [growLoop, full, bmap_load_full s i full]
        rfl
      · obtain ⟨ret, ino, t, j, n, loaded, grown, found, appended, starved, bytes⟩ :=
          bmap_load_spec others s i i.din.blocks superOthers mounted map (by omega) (by omega)
        rw [growLoop, loaded]
        simp only [ok_bind]
        by_cases zero : ret = 0
        · have one : n = 1 := by
            have below := (found zero).1
            exact (appended (by omega)).1
          subst one
          have blocks := grown.blocks
          simp only [zero, ne_eq, not_true_eq_false, if_false]
          rw [← blocks]
          rcases ih t j grown.effect.mounted grown.effect.map with
            ⟨stopped, exceeds, plenty⟩ | ⟨ret', u, k, m, rest, more, within, complete, partly, short, later⟩
          · have boundedJ := grown.effect.map.bounded
            refine Or.inl ⟨stopped, by omega, fun none => ?_⟩
            have spent := grown.cost none
            have left := plenty (grown.effect.step.results none)
            have sum := need_append i.din j.din 1 (1036 - j.din.blocks) blocks grown.indirect
            rw [show 1 + (1036 - j.din.blocks) = 1036 - i.din.blocks by omega] at sum
            omega
          · refine Or.inr ⟨ret', u, k, 1 + m, rest, grown_trans others _ _ _ _ _ _ _ _ grown more, by omega,
              fun done => by rw [complete done]; omega, fun bad => by have fewer := partly bad; omega, fun none bad => ?_,
              fun pos inside => (later pos (by omega)).trans (bytes pos inside)⟩
            obtain ⟨code, room, missing⟩ := short (grown.effect.step.results none) bad
            have spent := grown.cost none
            have sum := need_append i.din j.din 1 (m + 1) blocks grown.indirect
            rw [Nat.add_assoc]
            exact ⟨code, by omega, by omega⟩
        · have idle : n = 0 := by
            by_contra positive
            exact zero (appended (by omega)).2.2
          subst idle
          simp only [ne_eq, zero, not_false_eq_true, if_true, pure_ok]
          refine Or.inr ⟨ret, t, j, 0, rfl, grown, by omega, fun same => absurd same zero, fun _ => by omega, fun none bad => ?_, bytes⟩
          obtain ⟨code, _, short⟩ := starved none bad
          exact ⟨code, by omega, short⟩

-- A file with m blocks less.
structure Shrunk (others : Nat → Prop) (s s' : SfsFs) (i i' : SfsInode) (m : Nat) : Prop where
  effect : Effect others s s' i i'
  blocks : i'.din.blocks + m = i.din.blocks
  size : i'.din.size = i.din.size
  cost : s.dev.results = [] → s'.super.unusedBlocks = s.super.unusedBlocks + m
  marked : i'.dirty = true ∨ i' = i
  bytes : ∀ pos, pos / 4096 < i'.din.blocks → fileByte s' i'.din pos = fileByte s i.din pos

theorem cut_shrunk (others : Nat → Prop) (s s' : SfsFs) (i i' : SfsInode) (map : FileMap s i.din others)
    (some : i.din.blocks ≠ 0) (cut : Cut s s' i i') : Shrunk others s s' i i' 1 := by
  have blocks := cut_blocks s s' i i' cut
  have bounded := map.bounded
  refine ⟨⟨cut.mounted, cut_map s s' i i' others cut map some, cut_keeps s s' i i' others cut map some, by rw [cut.inode],
    by rw [cut.inode], fun _ => cut_exact s s' i i' others cut map some, fun _ => by rw [cut.inode]⟩, by omega, by rw [cut.inode],
    fun _ => cut.cost, Or.inl (by rw [cut.inode]), fun pos inside => ?_⟩
  rw [fileByte, cut.slots (pos / 4096) (by omega) (by omega), cut_data s s' i i' others cut map _ (by omega)]
  rfl

theorem shrunk_trans (others : Nat → Prop) (s t u : SfsFs) (i j k : SfsInode) (n m : Nat) (first : Shrunk others s t i j n)
    (second : Shrunk others t u j k m) : Shrunk others s u i k (n + m) := by
  have blocks := first.blocks
  have fewer := second.blocks
  refine ⟨effect_trans others s t u i j k first.effect second.effect, by omega, second.size.trans first.size, fun none => ?_, ?_,
    fun pos inside => (second.bytes pos inside).trans (first.bytes pos (by omega))⟩
  · have freed := first.cost none
    have more := second.cost (first.effect.step.results none)
    omega
  · rcases second.marked with dirty | same
    · exact Or.inl dirty
    · rw [same]
      exact first.marked

theorem shrink_loop_spec (others : Nat → Prop) (rounds : Nat) (s : SfsFs) (i : SfsInode) (mounted : Mounted s)
    (map : FileMap s i.din others) (enough : rounds ≤ i.din.blocks) :
    ∃ ret s' i' m, shrinkLoop s i rounds = .ok (ret, s', i') ∧ Shrunk others s s' i i' m ∧ m ≤ rounds ∧
      (ret = 0 → m = rounds) ∧ (s.dev.results = [] → ret = 0) := by
  induction rounds generalizing s i with
  | zero =>
      exact ⟨0, s, i, 0, rfl, ⟨effect_refl others s i mounted map, rfl, rfl, fun _ => rfl, Or.inr rfl, fun _ _ => rfl⟩,
        by omega, fun _ => rfl, fun _ => rfl⟩
  | succ rounds ih =>
      have some : i.din.blocks ≠ 0 := by omega
      rcases bmap_truncate_spec s i others mounted map some with ⟨t, j, cutOne, cut⟩ | ⟨ret, t, bad, failed, quiet, blame⟩
      · have first := cut_shrunk others s t i j map some cut
        have blocks := first.blocks
        obtain ⟨ret, u, k, m, rest, more, within, complete, success⟩ := ih t j cut.mounted first.effect.map (by omega)
        refine ⟨ret, u, k, 1 + m, ?_, shrunk_trans others _ _ _ _ _ _ _ _ first more, by omega,
          fun done => by rw [complete done]; omega, fun none => success (first.effect.step.results none)⟩
        rw [shrinkLoop, cutOne]
        simpa using rest
      · refine ⟨ret, t, i, 0, ?_, ⟨refused_effect others s t i map (refused_quiet s t quiet mounted), rfl, rfl, fun none => ?_,
          Or.inr rfl, refused_bytes others s t i map (refused_quiet s t quiet mounted)⟩, by omega, fun same => absurd same bad,
          fun none => absurd none blame⟩
        · rw [shrinkLoop, failed]
          simp [bad]
        · exact absurd none blame

-- The last writes of sfs_truncfile.
def SfsInode.resized (i : SfsInode) (len : Nat) : SfsInode := { i with din := { i.din with size := len }, dirty := true }

theorem resized_effect (others : Nat → Prop) (s s' : SfsFs) (i i' : SfsInode) (len : Nat) (effect : Effect others s s' i i') :
    Effect others s s' i (i'.resized len) := by
  have map := effect.map
  exact ⟨effect.mounted, ⟨map.type, map.bounded, map.mapped, map.unmapped, map.distinct, map.apart, map.owned, map.others⟩,
    effect.step, effect.ino, effect.nlinks, effect.exact, fun _ => rfl⟩

section Truncfile

variable (others : Nat → Prop) (s : SfsFs) (i : SfsInode) (len : Int)

theorem truncfile_invalid (invalid : ¬ (0 ≤ len ∧ len ≤ maxFileSize)) : sfsTruncfile s i len = .ok (eInval, s, i) := by
  have bad : len < 0 ∨ (maxFileSize : Int) < len := by omega
  simp [sfsTruncfile, bad]

theorem truncfile_same (valid : 0 ≤ len ∧ len ≤ maxFileSize) (same : (i.din.size : Int) = len) :
    sfsTruncfile s i len = if roundUpDiv len.toNat 4096 = i.din.blocks then .ok (0, s, i) else .error .assertFailed := by
  have good : ¬ (len < 0 ∨ (maxFileSize : Int) < len) := by omega
  by_cases agree : roundUpDiv len.toNat 4096 = i.din.blocks
  · simp [sfsTruncfile, good, same, blkSize, agree]
  · simp [sfsTruncfile, good, same, blkSize, agree]

theorem truncfile_grow (superOthers : others 0) (mounted : Mounted s) (map : FileMap s i.din others)
    (valid : 0 ≤ len ∧ len ≤ maxFileSize) (other : (i.din.size : Int) ≠ len) (up : i.din.blocks < roundUpDiv len.toNat 4096) :
    (sfsTruncfile s i len = .error .indexOutOfRange ∧ 1036 < roundUpDiv len.toNat 4096 ∧
      (s.dev.results = [] → needBlocks i.din (1036 - i.din.blocks) ≤ s.super.unusedBlocks)) ∨
    (∃ s' i', sfsTruncfile s i len = .ok (0, s', i'.resized len.toNat) ∧
      Grown others s s' i i' (roundUpDiv len.toNat 4096 - i.din.blocks) ∧
      ∀ pos, pos / 4096 < i.din.blocks → fileByte s' i'.din pos = fileByte s i.din pos) ∨
    ∃ ret s' i' n, ret ≠ 0 ∧ sfsTruncfile s i len = .ok (ret, s', i') ∧ Grown others s s' i i' n ∧
      n < roundUpDiv len.toNat 4096 - i.din.blocks ∧
      (s.dev.results = [] → ret = eNoMem ∧ i.din.blocks + n < 1036 ∧ s.super.unusedBlocks < needBlocks i.din (n + 1)) ∧
      ∀ pos, pos / 4096 < i.din.blocks → fileByte s' i'.din pos = fileByte s i.din pos := by
  have good : ¬ (len < 0 ∨ (maxFileSize : Int) < len) := by omega
  have size : blkSize = 4096 := rfl
  rcases grow_loop_spec others superOthers (roundUpDiv len.toNat 4096 - i.din.blocks) s i mounted map with
    ⟨stopped, exceeds, plenty⟩ | ⟨ret, s', i', n, ran, grown, _, complete, partly, short, bytes⟩
  · refine Or.inl ⟨?_, by omega, plenty⟩
    rw [sfsTruncfile, size]
    simp only [if_neg good, if_neg other, if_pos up, stopped, error_bind]
  · by_cases zero : ret = 0
    · have all := complete zero
      subst all
      have blocks := grown.blocks
      refine Or.inr (Or.inl ⟨s', i', ?_, grown, bytes⟩)
      rw [sfsTruncfile, size]
      have agree : decide (i'.din.blocks = roundUpDiv len.toNat 4096) = true := by
        rw [decide_eq_true_eq]
        omega
      simp only [if_neg good, if_neg other, if_pos up, ran, ok_bind, zero, ne_eq, not_true_eq_false, if_false, agree, check_true,
        pure_ok]
      rfl
    · refine Or.inr (Or.inr ⟨ret, s', i', n, zero, ?_, grown, partly zero, fun none => short none zero, bytes⟩)
      rw [sfsTruncfile, size]
      simp only [if_neg good, if_neg other, if_pos up, ran, ok_bind, ne_eq, zero, not_false_eq_true, if_true, pure_ok]

theorem truncfile_shrink (mounted : Mounted s) (map : FileMap s i.din others)
    (valid : 0 ≤ len ∧ len ≤ maxFileSize) (other : (i.din.size : Int) ≠ len) (down : roundUpDiv len.toNat 4096 ≤ i.din.blocks) :
    ∃ ret s' i' m, sfsTruncfile s i len = .ok (ret, s', if ret = 0 then i'.resized len.toNat else i') ∧ Shrunk others s s' i i' m ∧
      m ≤ i.din.blocks - roundUpDiv len.toNat 4096 ∧ (ret = 0 → m = i.din.blocks - roundUpDiv len.toNat 4096) ∧
      (s.dev.results = [] → ret = 0) := by
  have good : ¬ (len < 0 ∨ (maxFileSize : Int) < len) := by omega
  have size : blkSize = 4096 := rfl
  have notUp : ¬ i.din.blocks < roundUpDiv len.toNat 4096 := by omega
  obtain ⟨ret, s', i', m, ran, shrunk, within, complete, success⟩ :=
    shrink_loop_spec others (i.din.blocks - roundUpDiv len.toNat 4096) s i mounted map (by omega)
  refine ⟨ret, s', i', m, ?_, shrunk, within, complete, success⟩
  rw [sfsTruncfile, size]
  by_cases zero : ret = 0
  · have all := complete zero
    have blocks := shrunk.blocks
    have agree : decide (i'.din.blocks = roundUpDiv len.toNat 4096) = true := by
      rw [decide_eq_true_eq]
      omega
    simp only [if_neg good, if_neg other, if_neg notUp, ran, ok_bind, zero, ne_eq, not_true_eq_false, if_false, agree, check_true,
      pure_ok, if_true]
    rfl
  · simp only [if_neg good, if_neg other, if_neg notUp, ran, ok_bind, ne_eq, zero, not_false_eq_true, if_true, pure_ok, if_false]

end Truncfile

end Ucore.Sfs
