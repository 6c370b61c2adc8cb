import Ucore.Sfs.FreshVolume

set_option autoImplicit false

namespace Ucore.Sfs

open Ucore.Lib

-- A regular file as it is stored: enough blocks for its size, all of them in use.
structure Stored (sfs : SfsFs) (din : SfsDiskInode) : Prop where
  type : din.type = typeFile
  bounded : din.blocks ≤ 1036
  covered : din.size ≤ din.blocks * blkSize
  inUse : InUse sfs din

-- The same with blocks for its size and no more.
structure Readable (sfs : SfsFs) (din : SfsDiskInode) : Prop where
  type : din.type = typeFile
  bounded : din.blocks ≤ 1036
  rounded : din.blocks = roundUpDiv din.size blkSize
  inUse : InUse sfs din

theorem readable_stored (sfs : SfsFs) (din : SfsDiskInode) (readable : Readable sfs din) : Stored sfs din := by
  refine ⟨readable.type, readable.bounded, ?_, readable.inUse⟩
  rw [readable.rounded]
  simp only [roundUpDiv, blkSize]
  omega

theorem stored_small (sfs : SfsFs) (din : SfsDiskInode) (stored : Stored sfs din) : din.size ≤ 1036 * 4096 :=
  stored.covered.trans (Nat.mul_le_mul_right 4096 stored.bounded)

-- The bytes from cur on have gone to the buffer, and nothing else has changed.
structure ReadTo (s s' : IoState) (cur moved : Nat) : Prop where
  quiet : Quiet s.sfs s'.sfs
  sin : s'.sin = s.sin
  alen : s'.alen = s.alen + moved
  buf : ∀ k, s'.buf k = if s.alen ≤ k ∧ k < s.alen + moved then fileByte s.sfs s.sin.din (cur + (k - s.alen)) else s.buf k

section Quiet

variable (s s' : SfsFs) (din : SfsDiskInode)

theorem quiet_slot (quiet : Quiet s s') (index : Nat) : slot s' din index = slot s din index := by
  rw [slot, slot, quiet_data s s' quiet]

theorem quiet_byte (quiet : Quiet s s') (pos : Nat) : fileByte s' din pos = fileByte s din pos := by
  rw [fileByte, fileByte, quiet_slot s s' din quiet, quiet_data s s' quiet]

theorem quiet_in_use (quiet : Quiet s s') (inUse : InUse s din) : InUse s' din := by
  intro b refers
  have before : Refers s din b := by
    cases refers with
    | inl entry => exact .inl entry
    | inr mapped =>
        obtain ⟨index, below, same⟩ := mapped
        exact .inr ⟨index, below, (quiet_slot s s' din quiet index) ▸ same⟩
  obtain ⟨_, rfl, _⟩ := quiet
  exact inUse b before

theorem quiet_results (quiet : Quiet s s') (none : s.dev.results = []) : s'.dev.results = [] := by
  obtain ⟨_, rfl, still⟩ := quiet
  exact still none

end Quiet

section Rounds

theorem read_nothing (s s' : IoState) (cur : Nat) (quiet : Quiet s.sfs s'.sfs) (sin : s'.sin = s.sin) (alen : s'.alen = s.alen)
    (buf : s'.buf = s.buf) : ReadTo s s' cur 0 := by
  refine ⟨quiet, sin, by omega, fun k => ?_⟩
  rw [buf, if_neg (by omega)]

theorem read_trans (s t u : IoState) (cur n m : Nat) (first : ReadTo s t cur n) (second : ReadTo t u (cur + n) m) : ReadTo s u cur (n + m) where
  quiet := quiet_trans s.sfs t.sfs u.sfs first.quiet second.quiet
  sin := second.sin.trans first.sin
  alen := by rw [second.alen, first.alen, Nat.add_assoc]
  buf := by
    intro k
    rw [second.buf k, first.buf k, first.alen, first.sin, quiet_byte s.sfs t.sfs s.sin.din first.quiet]
    by_cases inSecond : s.alen + n ≤ k ∧ k < s.alen + n + m
    · rw [if_pos inSecond, if_pos (by omega)]
      congr 1
      omega
    · rw [if_neg inSecond]
      by_cases inFirst : s.alen ≤ k ∧ k < s.alen + n
      · rw [if_pos inFirst, if_pos (by omega)]
      · rw [if_neg inFirst, if_neg (by omega)]

-- One round inside one block that the file has.
theorem read_round (s : IoState) (cur size : Nat) (mounted : Mounted s.sfs) (bounded : s.sin.din.blocks ≤ 1036) (inUse : InUse s.sfs s.sin.din)
    (below : cur / 4096 < s.sin.din.blocks) (inBlock : cur % 4096 + size ≤ 4096) :
    ∃ ret s' moved, ioRound false s cur size = .ok (ret, s') ∧ ReadTo s s' cur moved ∧ (s.sfs.dev.results = [] → ret = 0) ∧
      moved = if ret = 0 then size else 0 := by
  obtain ⟨named, bound, _⟩ := inUse _ (Or.inr ⟨cur / 4096, below, rfl⟩)
  have start : cur % 4096 < 4096 := Nat.mod_lt _ (by decide)
  obtain ⟨ret, ino, t, quiet, success, here, loaded⟩ := bmap_load_mapped s.sfs s.sin (cur / 4096) mounted bounded inUse below
  by_cases zero : ret = 0
  · obtain rfl := here zero
    have boundT : slot s.sfs s.sin.din (cur / 4096) < t.super.blocks := by
      obtain ⟨_, rfl, _⟩ := quiet
      exact bound
    obtain ⟨ret', u, quietU, successU, read⟩ := rbuf_spec t (s.buf.from s.alen) size _ (cur % 4096) (quiet_mounted s.sfs t quiet mounted) named
      boundT start inBlock
    have whole := quiet_trans s.sfs t u quiet quietU
    have answers : s.sfs.dev.results = [] → ret' = 0 := fun none => successU (quiet_results s.sfs t quiet none)
    by_cases zero' : ret' = 0
    · simp only [zero', if_true] at read
      refine ⟨0, ⟨memcpy s.buf s.alen (memcpy (s.buf.from s.alen) 0 ((t.dev.data (slot s.sfs s.sin.din (cur / 4096))).from (cur % 4096)) size) size,
        s.alen + size, u, s.sin⟩, size, ?_, ⟨whole, rfl, rfl, fun k => ?_⟩, fun _ => rfl, by simp⟩
      · simp only [ioRound, blkSize, loaded, ok_bind, zero, sfsBufOp, Bool.false_eq_true, if_false, read, ne_eq, not_true_eq_false, pure_ok]
      · show memcpy s.buf s.alen _ size k = _
        by_cases moved : s.alen ≤ k ∧ k < s.alen + size
        · have sameBlock : (cur + (k - s.alen)) / 4096 = cur / 4096 := by omega
          have sameByte : cur % 4096 + (k - s.alen - 0) = (cur + (k - s.alen)) % 4096 := by omega
          rw [if_pos moved, memcpy_inside _ _ _ _ _ moved.1 moved.2, memcpy_inside _ _ _ _ _ (by omega) (by omega), Bytes.from,
            quiet_data s.sfs t quiet, fileByte, sameBlock, sameByte]
        · rw [if_neg moved, memcpy_outside _ _ _ _ _ (by omega)]
    · refine ⟨ret', { s with sfs := u, sin := s.sin }, 0, ?_, read_nothing s _ cur whole rfl rfl rfl, answers, by simp [zero']⟩
      simp only [ioRound, blkSize, loaded, ok_bind, zero, sfsBufOp, Bool.false_eq_true, if_false, read, zero', ne_eq, not_false_eq_true,
        not_true_eq_false, if_true, pure_ok]
  · refine ⟨ret, { s with sfs := t, sin := s.sin }, 0, ?_, read_nothing s _ cur quiet rfl rfl rfl, success, by simp [zero]⟩
    simp only [ioRound, blkSize, loaded, ok_bind, zero, ne_eq, not_false_eq_true, if_true, pure_ok]

-- The loop up to a position that the file has; it stops early at a block that the
-- device does not give.
theorem read_loop (endpos fuel : Nat) (s : IoState) (cur : Nat) (mounted : Mounted s.sfs) (bounded : s.sin.din.blocks ≤ 1036)
    (inUse : InUse s.sfs s.sin.din) (start : cur ≤ endpos) (inside : endpos ≤ s.sin.din.size)
    (covered : s.sin.din.size ≤ s.sin.din.blocks * 4096) (enough : endpos - cur < fuel) :
    ∃ ret s' moved, ioLoop false endpos s cur fuel = .ok (ret, s') ∧ ReadTo s s' cur moved ∧ cur + moved ≤ endpos ∧
      (ret = 0 → cur + moved = endpos) ∧ (s.sfs.dev.results = [] → ret = 0) := by
  induction fuel generalizing s cur with
  | zero => omega
  | succ fuel ih =>
      by_cases before : cur < endpos
      · have chunk := chunk_size_spec s.sin cur endpos false before fun _ => inside
        have small : cur % 4096 < 4096 := Nat.mod_lt _ (by decide)
        have some : chunkSize s.sin cur endpos false ≠ 0 := by omega
        obtain ⟨ret, t, moved, round, reads, success, size⟩ := read_round s cur (chunkSize s.sin cur endpos false) mounted bounded inUse
          (by omega) (by omega)
        rw [ioLoop, if_pos before, if_neg (by simp [some]), round]
        by_cases zero : ret = 0
        · rw [if_pos zero] at size
          subst size
          obtain ⟨final, u, rest, loops, later, within, complete, works⟩ := ih t (cur + chunkSize s.sin cur endpos false)
            (quiet_mounted s.sfs t.sfs reads.quiet mounted) (by rw [reads.sin]; exact bounded)
            (by rw [reads.sin]; exact quiet_in_use s.sfs t.sfs s.sin.din reads.quiet inUse) (by omega)
            (by rw [reads.sin]; exact inside) (by rw [reads.sin]; exact covered) (by omega)
          refine ⟨final, u, chunkSize s.sin cur endpos false + rest, ?_, read_trans s t u cur _ _ reads later, by omega, fun done => ?_,
            fun none => works (quiet_results s.sfs t.sfs reads.quiet none)⟩
          · simpa [zero] using loops
          · have reached := complete done
            omega
        · rw [if_neg zero] at size
          subst size
          exact ⟨ret, t, 0, by simp [zero], reads, by omega, fun same => absurd same zero, success⟩
      · exact ⟨0, s, 0, by rw [ioLoop, if_neg before], read_nothing s s cur (quiet_refl s.sfs) rfl rfl rfl, by omega, fun _ => by omega,
          fun _ => rfl⟩

end Rounds

-- How many bytes a read gets.
def readCount (size offset len : Nat) : Nat := min (offset + len) size - offset

theorem read_nolock_spec (sfs : SfsFs) (sin : SfsInode) (buf : Bytes) (offset len : Nat) (mounted : Mounted sfs) (stored : Stored sfs sin.din)
    (below : offset < maxFileSize) (fits : offset + len < 2 ^ 63) :
    ∃ ret s' moved, sfsIoNolock sfs sin buf offset len false = .ok (ret, s') ∧ s'.alen = moved ∧ moved ≤ readCount sin.din.size offset len ∧
      (∀ k, s'.buf k = if k < moved then fileByte sfs sin.din (offset + k) else buf k) ∧
      s'.sin = sin ∧ Quiet sfs s'.sfs ∧
      (ret = 0 → moved = readCount sin.din.size offset len) ∧ (sfs.dev.results = [] → ret = 0) := by
  have type := stored.type
  have bounded := stored.bounded
  have small := stored_small sfs sin.din stored
  have whole : toOff ((offset : Int) + len) = offset + len := Int.bmod_eq_of_le (by omega) (by omega)
  by_cases nothing : len = 0
  · have regular : decide (sin.din.type ≠ typeDir) = true := by simp [type, typeFile, typeDir]
    have valid : ¬ ((offset : Int) < 0 ∨ (maxFileSize : Int) ≤ offset ∨ toOff ((offset : Int) + len) < offset) := by omega
    refine ⟨0, ⟨buf, 0, sfs, sin⟩, 0, ?_, rfl, by omega, fun k => by simp, rfl, quiet_refl sfs, fun _ => ?_, fun _ => rfl⟩
    · simp only [sfsIoNolock, regular, check_true, ok_bind, if_neg valid, if_pos (show (offset : Int) = toOff (offset + len) by omega), pure_ok]
    · simp only [readCount]
      omega
  · have moves : Moves offset len := ⟨by omega, by omega, by omega⟩
    rw [io_nolock_read sfs sin buf offset len type moves]
    by_cases atEnd : (sin.din.size : Int) ≤ offset
    · refine ⟨0, ⟨buf, 0, sfs, sin⟩, 0, if_pos atEnd, rfl, by omega, fun k => by simp, rfl, quiet_refl sfs, fun _ => ?_, fun _ => rfl⟩
      simp only [readCount]
      omega
    · have last : min (ioEnd offset len) sin.din.size = min (offset + len) sin.din.size := by
        simp only [ioEnd, whole, maxFileSize]
        omega
      rw [if_neg atEnd, last]
      obtain ⟨ret, s', moved, loops, reads, within, complete, works⟩ := read_loop (min (offset + len) sin.din.size)
        (min (offset + len) sin.din.size - (offset : Int).toNat + 1) ⟨buf, 0, sfs, sin⟩ offset mounted bounded stored.inUse
        (by omega) (Nat.min_le_right _ _) stored.covered (by omega)
      refine ⟨ret, s', moved, loops, by simpa using reads.alen, ?_, fun k => ?_, reads.sin, reads.quiet, fun zero => ?_, works⟩
      · simp only [readCount]
        omega
      · simpa using reads.buf k
      · have reached := complete zero
        simp only [readCount]
        omega

-- Only the device's pending results are used up; a read that returns 0 has brought
-- the bytes from offset on up to the end of the range or of the file, and a read
-- fails only if the device does.
theorem read_exact (sfs : SfsFs) (sin : SfsInode) (buf : Bytes) (offset len : Nat) (mounted : Mounted sfs) (stored : Stored sfs sin.din)
    (below : offset < maxFileSize) (fits : offset + len < 2 ^ 63) :
    ∃ ret s' moved, sfsIoNolock sfs sin buf offset len false = .ok (ret, s') ∧ s'.alen = moved ∧ moved ≤ readCount sin.din.size offset len ∧
      (∀ k, s'.buf k = if k < moved then fileByte sfs sin.din (offset + k) else buf k) ∧
      s'.sin = sin ∧ s'.sfs = { sfs with dev := { sfs.dev with results := s'.sfs.dev.results } } ∧
      (ret = 0 → moved = readCount sin.din.size offset len) ∧ (sfs.dev.results = [] → ret = 0) := by
  obtain ⟨ret, s', moved, reads, alen, within, buffer, inode, quiet, complete, works⟩ :=
    read_nolock_spec sfs sin buf offset len mounted stored below fits
  obtain ⟨results, same, _⟩ := quiet
  exact ⟨ret, s', moved, reads, alen, within, buffer, inode, by rw [same], complete, works⟩

section Example

-- A file of 50000 bytes that was written: 13 blocks and an indirect one.
def doStep (v : Volume 1) (call : FileCall) : Volume 1 := (v.step (0, call)).getD v

def writtenVolume : Volume 1 := doStep (doStep (freshVolume 1) (.truncfile 50000)) (.io (fun k => UInt8.ofNat (k / 7)) 0 50000 true)

theorem do_step_well_formed (v : Volume 1) (call : FileCall) (wellFormed : v.WellFormed (freshReserved 1)) :
    (doStep v call).WellFormed (freshReserved 1) := by
  unfold doStep
  cases stepped : v.step (0, call) with
  | none => exact wellFormed
  | some next =>
      obtain ⟨s', i', rfl, effect⟩ := step_effect v next (freshReserved 1) (0, call) wellFormed stepped
      exact after_well_formed v (freshReserved 1) 0 s' i' wellFormed effect

theorem written_well_formed : writtenVolume.WellFormed (freshReserved 1) :=
  do_step_well_formed _ _ (do_step_well_formed _ _ (fresh_image 1 (by decide)).wellFormed)

-- A read of 2000 bytes that begins 1000 bytes before the end, behind the 12 direct
-- blocks.
theorem read_exact_tail : ∃ s', sfsIoNolock writtenVolume.sfs (writtenVolume.files 0) zeroBytes 49000 2000 false = .ok (0, s') ∧
    s'.alen = 1000 ∧ s'.sin = writtenVolume.files 0 ∧ ∀ k, k < 1000 → s'.buf k = fileByte writtenVolume.sfs (writtenVolume.files 0).din (49000 + k) := by
  have wellFormed := written_well_formed
  have map := wellFormed.maps 0
  have facts : (writtenVolume.files 0).din.size = 50000 ∧ (writtenVolume.files 0).din.blocks = 13 ∧ writtenVolume.sfs.dev.results = [] := by
    decide +kernel
  obtain ⟨size, blocks, works⟩ := facts
  have stored : Stored writtenVolume.sfs (writtenVolume.files 0).din :=
    ⟨map.type, map.bounded, by rw [size, blocks]; decide, map_in_use _ _ _ map⟩
  obtain ⟨ret, s', moved, reads, alen, _, buf, sin, _, complete, success⟩ := read_exact writtenVolume.sfs (writtenVolume.files 0) zeroBytes 49000
    2000 wellFormed.mounted stored (by decide) (by decide)
  have zero := success works
  have count : moved = 1000 := by
    rw [complete zero, size]
    rfl
  subst zero count
  exact ⟨s', reads, alen, sin, fun k inside => by rw [buf k, if_pos inside]⟩

end Example

end Ucore.Sfs
