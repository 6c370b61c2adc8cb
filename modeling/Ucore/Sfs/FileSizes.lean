import Ucore.Sfs.FreshVolume

set_option autoImplicit false

namespace Ucore.Sfs

open Ucore.Lib

variable {n : Nat}

def blocksOf (size : Nat) : Nat := roundUpDiv size 4096

-- A truncation upwards that gets its first block and not its last one.
def TruncLeaves (s : SfsFs) (din : SfsDiskInode) (len : Int) : Prop :=
  (0 ≤ len ∧ len ≤ maxFileSize) ∧ (din.size : Int) ≠ len ∧ din.blocks < blocksOf len.toNat ∧
    growCost din ≤ s.super.unusedBlocks ∧ s.super.unusedBlocks < needBlocks din (min (blocksOf len.toNat) 1036 - din.blocks)

-- The calls that add blocks to a file and leave its size as it is: a write that
-- gets a block past the last one, or such a truncation.
def LeavesBlocks (s : SfsFs) (din : SfsDiskInode) : FileCall → Prop
  | .io _ offset resid write =>
      write = true ∧ Moves offset resid ∧ din.blocks < blocksOf (ioEnd offset resid) ∧ growCost din ≤ s.super.unusedBlocks
  | .truncfile len => TruncLeaves s din len
  | .tryseek pos => (0 ≤ pos ∧ pos < maxFileSize) ∧ din.size < pos ∧ TruncLeaves s din pos

instance (s : SfsFs) (din : SfsDiskInode) (len : Int) : Decidable (TruncLeaves s din len) :=
  inferInstanceAs (Decidable ((0 ≤ len ∧ len ≤ maxFileSize) ∧ (din.size : Int) ≠ len ∧ din.blocks < blocksOf len.toNat ∧
    growCost din ≤ s.super.unusedBlocks ∧ s.super.unusedBlocks < needBlocks din (min (blocksOf len.toNat) 1036 - din.blocks)))

instance (s : SfsFs) (din : SfsDiskInode) (call : FileCall) : Decidable (LeavesBlocks s din call) :=
  match call with
  | .io _ offset resid write => inferInstanceAs (Decidable (write = true ∧ Moves offset resid ∧
      din.blocks < blocksOf (ioEnd offset resid) ∧ growCost din ≤ s.super.unusedBlocks))
  | .truncfile len => inferInstanceAs (Decidable (TruncLeaves s din len))
  | .tryseek pos => inferInstanceAs (Decidable ((0 ≤ pos ∧ pos < maxFileSize) ∧ din.size < pos ∧ TruncLeaves s din pos))

-- The size and the blocks after a call: both set by the call, or the size of
-- before with some more blocks.
inductive SizeOutcome (leaves : Prop) (din din' : SfsDiskInode) : Prop where
  | resized (blocks : din'.blocks = blocksOf din'.size)
  | kept (size : din'.size = din.size) (blocks : din'.blocks = din.blocks)
  | left (size : din'.size = din.size) (more : din.blocks < din'.blocks) (leaves : leaves)

section Calls

variable (others : Nat → Prop) (s : SfsFs) (i : SfsInode)

theorem grown_outcome (leaves : Prop) (s' : SfsFs) (i' : SfsInode) (m : Nat) (grown : Grown others s s' i i' m)
    (positive : 0 < m → leaves) : SizeOutcome leaves i.din i'.din := by
  have blocks := grown.blocks
  by_cases still : m = 0
  · exact .kept grown.size (by omega)
  · exact .left grown.size (by omega) (positive (by omega))

-- Blocks that were added were free before.
theorem grown_afford (s' : SfsFs) (i' : SfsInode) (m : Nat) (map : FileMap s i.din others) (noFault : s.dev.results = [])
    (grown : Grown others s s' i i' m) (positive : 0 < m) : growCost i.din ≤ s.super.unusedBlocks := by
  have spent := grown.cost noFault
  have mono := need_mono i.din 1 m (by omega)
  have one := need_one s i.din others map
  omega

theorem truncfile_outcome (len : Int) (superOthers : others 0) (mounted : Mounted s) (map : FileMap s i.din others)
    (noFault : s.dev.results = []) (ret : Int) (s' : SfsFs) (i' : SfsInode) (ran : sfsTruncfile s i len = .ok (ret, s', i')) :
    SizeOutcome (TruncLeaves s i.din len) i.din i'.din := by
  by_cases valid : 0 ≤ len ∧ len ≤ maxFileSize
  · by_cases same : (i.din.size : Int) = len
    · rw [truncfile_same s i len valid same] at ran
      split at ran
      · cases ran
        exact .kept rfl rfl
      · cases ran
    · by_cases up : i.din.blocks < roundUpDiv len.toNat 4096
      · rcases truncfile_grow others s i len superOthers mounted map valid same up with
          ⟨stopped, _⟩ | ⟨t, j, done, grown, _⟩ | ⟨_, t, j, m, _, failed, grown, fewer, short, _⟩
        · rw [stopped] at ran
          cases ran
        · rw [done] at ran
          cases ran
          have blocks := grown.blocks
          exact .resized (by simp only [SfsInode.resized, blocksOf]; omega)
        · rw [failed] at ran
          cases ran
          obtain ⟨_, room, missing⟩ := short noFault
          refine grown_outcome others s i _ _ _ m grown fun positive => ⟨valid, same, up, ?_, ?_⟩
          · exact grown_afford others s i _ _ m map noFault grown positive
          · have mono := need_mono i.din (m + 1) (min (blocksOf len.toNat) 1036 - i.din.blocks) (by simp only [blocksOf]; omega)
            omega
      · obtain ⟨code, t, j, m, done, shrunk, _, complete, success⟩ :=
          truncfile_shrink others s i len mounted map valid same (by omega)
        have zero := success noFault
        have all := complete zero
        have blocks := shrunk.blocks
        rw [done, if_pos zero] at ran
        cases ran
        exact .resized (by simp only [SfsInode.resized, blocksOf]; omega)
  · rw [truncfile_invalid s i len valid] at ran
    cases ran
    exact .kept rfl rfl

theorem call_outcome (call : FileCall) (superOthers : others 0) (mounted : Mounted s) (map : FileMap s i.din others)
    (noFault : s.dev.results = []) (covered : i.din.size ≤ i.din.blocks * 4096) (reply : Reply) (s' : SfsFs) (i' : SfsInode)
    (ran : call.run s i = .ok (reply, s', i')) : SizeOutcome (LeavesBlocks s i.din call) i.din i'.din := by
  cases call with
  | io buf offset resid write =>
      simp only [FileCall.run] at ran
      by_cases moves : Moves offset resid
      · cases write with
        | true =>
            by_cases near : offset.toNat / 4096 ≤ i.din.blocks
            · rcases io_write_spec others s i buf offset resid superOthers mounted map moves near with
                ⟨stopped, _⟩ | ⟨ret, t, m, done, grown, _, _, covers, _⟩
              · rw [stopped] at ran
                cases ran
              · rw [done] at ran
                cases ran
                refine grown_outcome others s i _ _ _ m grown fun positive => ⟨rfl, moves, ?_, ?_⟩
                · have cover := covers positive
                  simp only [blocksOf]
                  omega
                · exact grown_afford others s i _ _ m map noFault grown positive
            · rw [io_write_past s i buf offset resid map.type moves (by omega)] at ran
              cases ran
        | false =>
            by_cases atEnd : (i.din.size : Int) ≤ offset
            · rw [io_read_end s i buf offset resid map.type moves atEnd] at ran
              cases ran
              exact .kept rfl rfl
            · have nonneg := moves.1
              rcases io_read_spec others s i buf offset resid superOthers mounted map moves (by omega) (by omega) with
                ⟨stopped, _⟩ | ⟨ret, t, m, done, grown, _, covers, _⟩
              · rw [stopped] at ran
                cases ran
              · rw [done] at ran
                cases ran
                refine grown_outcome others s i _ _ _ m grown fun positive => ?_
                have cover := covers positive
                simp only [roundUpDiv] at cover
                omega
      · obtain ⟨ret, done⟩ := io_idle s i buf offset resid write map.type moves
        rw [done] at ran
        cases ran
        exact .kept rfl rfl
  | truncfile len =>
      simp only [FileCall.run] at ran
      cases done : sfsTruncfile s i len with
      | error fault => simp [done] at ran
      | ok result =>
          obtain ⟨ret, t, j⟩ := result
          rw [done] at ran
          cases ran
          exact truncfile_outcome others s i len superOthers mounted map noFault ret _ _ done
  | tryseek pos =>
      simp only [FileCall.run, sfsTryseek] at ran
      by_cases invalid : pos < 0 ∨ (maxFileSize : Int) ≤ pos
      · rw [if_pos invalid] at ran
        cases ran
        exact .kept rfl rfl
      · rw [if_neg invalid] at ran
        by_cases beyond : (i.din.size : Int) < pos
        · rw [if_pos beyond] at ran
          cases done : sfsTruncfile s i pos with
          | error fault => simp [done] at ran
          | ok result =>
              obtain ⟨ret, t, j⟩ := result
              rw [done] at ran
              cases ran
              cases truncfile_outcome others s i pos superOthers mounted map noFault ret _ _ done with
              | resized blocks => exact .resized blocks
              | kept size blocks => exact .kept size blocks
              | left size more leaves => exact .left size more ⟨by omega, beyond, leaves⟩
        · rw [if_neg beyond] at ran
          cases ran
          exact .kept rfl rfl

end Calls

theorem outcome_covered (leaves : Prop) (din din' : SfsDiskInode) (outcome : SizeOutcome leaves din din')
    (covered : din.size ≤ din.blocks * 4096) : din'.size ≤ din'.blocks * 4096 := by
  cases outcome with
  | resized blocks =>
      rw [blocks, blocksOf, roundUpDiv]
      omega
  | kept size blocks => rw [size, blocks]; exact covered
  | left size more _ =>
      rw [size]
      exact Nat.le_trans covered (Nat.mul_le_mul_right 4096 (Nat.le_of_lt more))

def Volume.Covered (v : Volume n) : Prop := ∀ file, (v.files file).din.size ≤ (v.files file).din.blocks * 4096

theorem step_outcome (v next : Volume n) (reserved : Nat → Prop) (event : Fin n × FileCall) (image : v.Image reserved)
    (covered : v.Covered) (stepped : v.step event = some next) :
    SizeOutcome (LeavesBlocks v.sfs (v.files event.1).din event.2) (v.files event.1).din (next.files event.1).din ∧
      ∀ other, other ≠ event.1 → next.files other = v.files other := by
  obtain ⟨reply, s', i', ran, rfl⟩ := step_some v next event stepped
  refine ⟨?_, fun other apart => after_other v event.1 s' i' other apart⟩
  rw [after_self v event.1 s' i' event.1 rfl]
  exact call_outcome _ v.sfs _ event.2 (Or.inl image.wellFormed.superBlock) image.wellFormed.mounted
    (image.wellFormed.maps event.1) image.noFault (covered event.1) reply s' i' ran

theorem step_covered (v next : Volume n) (reserved : Nat → Prop) (event : Fin n × FileCall) (image : v.Image reserved)
    (covered : v.Covered) (stepped : v.step event = some next) : next.Covered := by
  obtain ⟨outcome, same⟩ := step_outcome v next reserved event image covered stepped
  intro file
  by_cases here : file = event.1
  · rw [here]
    exact outcome_covered _ _ _ outcome (covered event.1)
  · rw [same file here]
    exact covered file

end Ucore.Sfs
