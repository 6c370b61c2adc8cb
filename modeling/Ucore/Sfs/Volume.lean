import Ucore.Lib.Run
import Ucore.Sfs.FileOps

set_option autoImplicit false

namespace Ucore.Sfs

open Ucore.Lib

-- The calls on a regular file that move data or change its length.
inductive FileCall where
  | io (buf : Bytes) (offset : Int) (resid : Nat) (write : Bool)
  | truncfile (len : Int)
  | tryseek (pos : Int)

structure Reply where
  ret : Int
  buf : Bytes
  alen : Nat

def FileCall.run (call : FileCall) (sfs : SfsFs) (sin : SfsInode) : Except Fault (Reply × SfsFs × SfsInode) :=
  match call with
  | .io buf offset resid write => do
      let (ret, s) ← sfsIo sfs sin buf offset resid write
      return (⟨ret, s.buf, s.alen⟩, s.sfs, s.sin)
  | .truncfile len => do
      let (ret, sfs, sin) ← sfsTruncfile sfs sin len
      return (⟨ret, zeroBytes, 0⟩, sfs, sin)
  | .tryseek pos => do
      let (ret, sfs, sin) ← sfsTryseek sfs sin pos
      return (⟨ret, zeroBytes, 0⟩, sfs, sin)

-- A mounted file system with the inodes of its regular files in memory.
structure Volume (n : Nat) where
  sfs : SfsFs
  files : Fin n → SfsInode

variable {n : Nat}

def Volume.step (v : Volume n) (event : Fin n × FileCall) : Option (Volume n) :=
  (event.2.run v.sfs (v.files event.1)).toOption.map fun (_, sfs, sin) => ⟨sfs, Function.update v.files event.1 sin⟩

-- Blocks that are not the file's: the reserved ones, which are the super block,
-- the freemap, the inodes and all that the directories hold, and those of the
-- other files.
def Volume.others (v : Volume n) (reserved : Nat → Prop) (file : Fin n) (b : Nat) : Prop :=
  reserved b ∨ ∃ other, other ≠ file ∧ Refers v.sfs (v.files other).din b

structure Volume.WellFormed (v : Volume n) (reserved : Nat → Prop) : Prop where
  mounted : Mounted v.sfs
  superBlock : reserved 0
  maps : ∀ file, FileMap v.sfs (v.files file).din (v.others reserved file)

-- No block is in use without an owner.
def Volume.NoLeak (v : Volume n) (reserved : Nat → Prop) : Prop :=
  ∀ b, b < v.sfs.super.blocks → v.sfs.freemap.bit b = false → reserved b ∨ ∃ file, Refers v.sfs (v.files file).din b

theorem io_moved_le (offset : Int) (alen moved : Nat) (moves : Moves offset alen)
    (within : offset.toNat + moved ≤ ioEnd offset alen) : moved ≤ alen := by
  obtain ⟨nonneg, _, _⟩ := moves
  have wrapped : toOff (offset + alen) ≤ offset + alen := by
    have whole : (0 : Int) ≤ offset + alen := by omega
    simp only [toOff, Int.bmod_def]
    split <;> omega
  simp only [ioEnd] at within
  omega

section Calls

variable (others : Nat → Prop) (s : SfsFs) (i : SfsInode)

theorem io_idle (buf : Bytes) (offset : Int) (resid : Nat) (write : Bool) (file : i.din.type = typeFile)
    (idle : ¬ Moves offset resid) : ∃ ret, sfsIo s i buf offset resid write = .ok (ret, ⟨buf, 0, s, i⟩) := by
  obtain ⟨ret, result⟩ := io_nolock_idle s i buf offset resid write file idle
  exact ⟨ret, by simp [sfsIo, result]⟩

theorem io_write_past (buf : Bytes) (offset : Int) (resid : Nat) (file : i.din.type = typeFile) (moves : Moves offset resid)
    (past : i.din.blocks < offset.toNat / 4096) : sfsIo s i buf offset resid true = .error .indexPastBlocks := by
  have loop := io_loop_past true (ioEnd offset resid) ⟨buf, 0, s, i⟩ offset.toNat (ioEnd offset resid - offset.toNat)
    (moves_end offset resid moves) past (fun reading => by cases reading)
  rw [sfsIo, io_nolock_write s i buf offset resid file moves, loop]
  rfl

-- A write with its start at a block that the file has or the next one.
theorem io_write_spec (buf : Bytes) (offset : Int) (resid : Nat) (superOthers : others 0) (mounted : Mounted s)
    (map : FileMap s i.din others) (moves : Moves offset resid) (near : offset.toNat / 4096 ≤ i.din.blocks) :
    (sfsIo s i buf offset resid true = .error .indexOutOfRange ∧ 1036 < roundUpDiv (ioEnd offset resid) 4096 ∧
      (s.dev.results = [] → needBlocks i.din (1036 - i.din.blocks) ≤ s.super.unusedBlocks)) ∨
    ∃ ret s' m, sfsIo s i buf offset resid true = .ok (ret, s') ∧ Grown others s s'.sfs i s'.sin m ∧
      Copied true ⟨buf, 0, s, i⟩ s' offset.toNat s'.alen ∧ offset.toNat + s'.alen ≤ ioEnd offset resid ∧
      (0 < m → i.din.blocks + m ≤ roundUpDiv (ioEnd offset resid) 4096) ∧
      (ret = 0 → offset.toNat + s'.alen = ioEnd offset resid ∧ roundUpDiv (ioEnd offset resid) 4096 ≤ i.din.blocks + m) ∧
      (s.dev.results = [] → ret ≠ 0 → ret = eNoMem ∧ i.din.blocks + m < min (roundUpDiv (ioEnd offset resid) 4096) 1036 ∧
        s.super.unusedBlocks < needBlocks i.din (m + 1)) := by
  have before := moves_end offset resid moves
  rcases io_loop_spec others true (ioEnd offset resid) superOthers (ioEnd offset resid - offset.toNat + 1) ⟨buf, 0, s, i⟩ offset.toNat
    mounted map (by omega) (fun _ => near) (fun reading => by cases reading) (by omega) with
    ⟨stopped, _, exceeds, plenty⟩ | ⟨ret, s', m, moved, ran, grown, copied, within, covers, complete, short⟩
  · refine Or.inl ⟨?_, exceeds, plenty⟩
    rw [sfsIo, io_nolock_write s i buf offset resid map.type moves, stopped]
    rfl
  · have alen : s'.alen = moved := by simpa using copied.alen
    subst alen
    refine Or.inr ⟨ret, s', m, ?_, grown, copied, within, covers, fun zero => ⟨(complete zero).1, (complete zero).2 before⟩, short⟩
    have fits : decide (s'.alen ≤ resid) = true := by
      rw [decide_eq_true_eq]
      exact io_moved_le offset resid s'.alen moves within
    rw [sfsIo, io_nolock_write s i buf offset resid map.type moves, ran]
    simp only [ok_bind, fits, check_true, pure_ok]

theorem io_read_end (buf : Bytes) (offset : Int) (resid : Nat) (file : i.din.type = typeFile) (moves : Moves offset resid)
    (atEnd : (i.din.size : Int) ≤ offset) : sfsIo s i buf offset resid false = .ok (0, ⟨buf, 0, s, i⟩) := by
  rw [sfsIo, io_nolock_read s i buf offset resid file moves, if_pos atEnd]
  simp

theorem io_read_past (buf : Bytes) (offset : Int) (resid : Nat) (file : i.din.type = typeFile) (moves : Moves offset resid)
    (before : offset < i.din.size) (past : i.din.blocks < offset.toNat / 4096) :
    sfsIo s i buf offset resid false = .error .indexPastBlocks := by
  have some := moves_end offset resid moves
  have nonneg := moves.1
  have loop := io_loop_past false (min (ioEnd offset resid) i.din.size) ⟨buf, 0, s, i⟩ offset.toNat
    (min (ioEnd offset resid) i.din.size - offset.toNat) (by omega) past (fun _ => by simp only; omega)
  rw [sfsIo, io_nolock_read s i buf offset resid file moves, if_neg (by omega), loop]
  rfl

theorem io_read_spec (buf : Bytes) (offset : Int) (resid : Nat) (superOthers : others 0) (mounted : Mounted s)
    (map : FileMap s i.din others) (moves : Moves offset resid) (before : offset < i.din.size)
    (near : offset.toNat / 4096 ≤ i.din.blocks) :
    (sfsIo s i buf offset resid false = .error .indexOutOfRange ∧ 1036 * 4096 < i.din.size) ∨
    ∃ ret s' m, sfsIo s i buf offset resid false = .ok (ret, s') ∧ Grown others s s'.sfs i s'.sin m ∧
      Copied false ⟨buf, 0, s, i⟩ s' offset.toNat s'.alen ∧
      (0 < m → i.din.blocks + m ≤ roundUpDiv (min (ioEnd offset resid) i.din.size) 4096) ∧
      (ret = 0 → offset.toNat + s'.alen = min (ioEnd offset resid) i.din.size) ∧
      (s.dev.results = [] → i.din.size ≤ i.din.blocks * 4096 → ret = 0) := by
  have some := moves_end offset resid moves
  have nonneg := moves.1
  rcases io_loop_spec others false (min (ioEnd offset resid) i.din.size) superOthers
    (min (ioEnd offset resid) i.din.size - offset.toNat + 1) ⟨buf, 0, s, i⟩ offset.toNat
    mounted map (by omega) (fun _ => near) (fun _ => by simp only; omega) (by omega) with
    ⟨stopped, _, exceeds, _⟩ | ⟨ret, s', m, moved, ran, grown, copied, within, covers, complete, short⟩
  · refine Or.inl ⟨?_, ?_⟩
    · rw [sfsIo, io_nolock_read s i buf offset resid map.type moves, if_neg (by omega), stopped]
      rfl
    · simp only [roundUpDiv] at exceeds
      omega
  · have alen : s'.alen = moved := by simpa using copied.alen
    subst alen
    refine Or.inr ⟨ret, s', m, ?_, grown, copied, covers, fun zero => (complete zero).1, fun none enough => ?_⟩
    · have fits : decide (s'.alen ≤ resid) = true := by
        rw [decide_eq_true_eq]
        exact io_moved_le offset resid s'.alen moves (by omega)
      rw [sfsIo, io_nolock_read s i buf offset resid map.type moves, if_neg (by omega), ran]
      simp only [ok_bind, fits, check_true, pure_ok]
    · by_contra bad
      have behind := (short none bad).2.1
      simp only [roundUpDiv] at behind
      omega

theorem truncfile_effect (len : Int) (superOthers : others 0) (mounted : Mounted s) (map : FileMap s i.din others) (ret : Int)
    (s' : SfsFs) (i' : SfsInode) (ran : sfsTruncfile s i len = .ok (ret, s', i')) : Effect others s s' i i' := by
  by_cases valid : 0 ≤ len ∧ len ≤ maxFileSize
  · by_cases same : (i.din.size : Int) = len
    · rw [truncfile_same s i len valid same] at ran
      split at ran
      · cases ran
        exact effect_refl others s i mounted map
      · cases ran
    · by_cases up : i.din.blocks < roundUpDiv len.toNat 4096
      · rcases truncfile_grow others s i len superOthers mounted map valid same up with
          ⟨stopped, _⟩ | ⟨t, j, done, grown, _⟩ | ⟨_, t, j, _, _, failed, grown, _⟩
        · rw [stopped] at ran
          cases ran
        · rw [done] at ran
          cases ran
          exact resized_effect others s _ i _ _ grown.effect
        · rw [failed] at ran
          cases ran
          exact grown.effect
      · obtain ⟨code, t, j, m, done, shrunk, _⟩ := truncfile_shrink others s i len mounted map valid same (by omega)
        rw [done] at ran
        cases ran
        split
        · exact resized_effect others s _ i _ _ shrunk.effect
        · exact shrunk.effect
  · rw [truncfile_invalid s i len valid] at ran
    cases ran
    exact effect_refl others s i mounted map

theorem call_effect (call : FileCall) (superOthers : others 0) (mounted : Mounted s) (map : FileMap s i.din others) (reply : Reply)
    (s' : SfsFs) (i' : SfsInode) (ran : call.run s i = .ok (reply, s', i')) : Effect others s s' i i' := by
  cases call with
  | io buf offset resid write =>
      simp only [FileCall.run] at ran
      by_cases moves : Moves offset resid
      · cases write with
        | true =>
            by_cases near : offset.toNat / 4096 ≤ i.din.blocks
            · rcases io_write_spec others s i buf offset resid superOthers mounted map moves near with
                ⟨stopped, _⟩ | ⟨ret, t, m, done, grown, _⟩
              · rw [stopped] at ran
                cases ran
              · rw [done] at ran
                cases ran
                exact grown.effect
            · rw [io_write_past s i buf offset resid map.type moves (by omega)] at ran
              cases ran
        | false =>
            by_cases atEnd : (i.din.size : Int) ≤ offset
            · rw [io_read_end s i buf offset resid map.type moves atEnd] at ran
              cases ran
              exact effect_refl others s i mounted map
            · by_cases near : offset.toNat / 4096 ≤ i.din.blocks
              · rcases io_read_spec others s i buf offset resid superOthers mounted map moves (by omega) near with
                  ⟨stopped, _⟩ | ⟨ret, t, m, done, grown, _⟩
                · rw [stopped] at ran
                  cases ran
                · rw [done] at ran
                  cases ran
                  exact grown.effect
              · rw [io_read_past s i buf offset resid map.type moves (by omega) (by omega)] at ran
                cases ran
      · obtain ⟨ret, done⟩ := io_idle s i buf offset resid write map.type moves
        rw [done] at ran
        cases ran
        exact effect_refl others s i mounted map
  | truncfile len =>
      simp only [FileCall.run] at ran
      cases done : sfsTruncfile s i len with
      | error fault => simp [done] at ran
      | ok result =>
          obtain ⟨ret, t, j⟩ := result
          rw [done] at ran
          cases ran
          exact truncfile_effect others s i len superOthers mounted map ret t j done
  | tryseek pos =>
      simp only [FileCall.run, sfsTryseek] at ran
      split at ran
      · cases ran
        exact effect_refl others s i mounted map
      · split at ran
        · cases done : sfsTruncfile s i pos with
          | error fault => simp [done] at ran
          | ok result =>
              obtain ⟨ret, t, j⟩ := result
              rw [done] at ran
              cases ran
              exact truncfile_effect others s i pos superOthers mounted map ret t j done
        · cases ran
          exact effect_refl others s i mounted map

end Calls

end Ucore.Sfs
