import Ucore.Sfs.Volume

set_option autoImplicit false

namespace Ucore.Sfs

open Ucore.Lib

-- The bytes of one round are in the file, also where its block is new.
theorem io_round_written (others : Nat → Prop) (s next : IoState) (cur size : Nat) (superOthers : others 0) (mounted : Mounted s.sfs)
    (map : FileMap s.sfs s.sin.din others) (near : cur / 4096 ≤ s.sin.din.blocks) (inBlock : cur % 4096 + size ≤ 4096)
    (ran : ioRound true s cur size = .ok (0, next)) (pos : Nat) (low : cur ≤ pos) (high : pos < cur + size) :
    fileByte next.sfs next.sin.din pos = s.buf (s.alen + (pos - cur)) := by
  have bounded := map.bounded
  by_cases last : cur / 4096 = 1036
  · have full : s.sin.din.blocks = 1036 := by omega
    simp [ioRound, blkSize, last, bmap_load_full s.sfs s.sin full] at ran
  · obtain ⟨ret, ino, sfs', i', n, loaded, grown, found, _, _, _⟩ :=
      bmap_load_spec others s.sfs s.sin (cur / 4096) superOthers mounted map near (by omega)
    by_cases zero : ret = 0
    · subst zero
      obtain ⟨below, here⟩ := found rfl
      have belowMid : cur / 4096 < i'.din.blocks := by
        rw [grown.blocks]
        exact below
      obtain ⟨ret', chunk, sfs'', moved, _, _, copied, _⟩ :=
        buf_op_spec others true ⟨s.buf, s.alen, sfs', i'⟩ cur size grown.effect.mounted grown.effect.map belowMid inBlock
      simp only [← here] at moved
      simp only [ioRound, blkSize, loaded, ok_bind, ne_eq, not_true_eq_false, if_false, moved] at ran
      by_cases zero' : ret' = 0
      · simp only [zero', not_true_eq_false, if_false, pure_ok, Except.ok.injEq, Prod.mk.injEq, true_and] at ran
        subst ran
        have bytes := ((copied zero').written rfl).2 pos (by simp only; omega)
        rw [if_pos ⟨low, high⟩] at bytes
        exact bytes
      · simp only [zero', not_false_eq_true, if_true, pure_ok, Except.ok.injEq, Prod.mk.injEq, false_and] at ran
    · simp only [ioRound, blkSize, loaded, ok_bind, ne_eq, zero, not_false_eq_true, if_true, pure_ok, Except.ok.injEq, Prod.mk.injEq,
        false_and] at ran

-- The loop for a write: its bytes are in the file, and on a working disk it stops
-- only at the start of a block that the file does not have.
theorem io_loop_written (others : Nat → Prop) (endpos : Nat) (superOthers : others 0) (fuel : Nat) (s s' : IoState) (cur : Nat) (ret : Int)
    (mounted : Mounted s.sfs) (map : FileMap s.sfs s.sin.din others) (inRange : cur ≤ endpos)
    (near : cur < endpos → cur / 4096 ≤ s.sin.din.blocks) (enough : endpos - cur < fuel) (ran : ioLoop true endpos s cur fuel = .ok (ret, s')) :
    s.alen ≤ s'.alen ∧
    (∀ pos, cur ≤ pos → pos < cur + (s'.alen - s.alen) → fileByte s'.sfs s'.sin.din pos = s.buf (s.alen + (pos - cur))) ∧
      (s.sfs.dev.results = [] → ret ≠ 0 → (cur + (s'.alen - s.alen)) / 4096 = s'.sin.din.blocks ∧
        (s'.alen = s.alen ∨ (cur + (s'.alen - s.alen)) % 4096 = 0)) := by
  induction fuel generalizing s cur with
  | zero => cases ran
  | succ fuel ih =>
      by_cases before : cur < endpos
      · have chunk := chunk_size_spec s.sin cur endpos true before (fun reading => by cases reading)
        have small : cur % 4096 < 4096 := Nat.mod_lt _ (by decide)
        rw [ioLoop, if_pos before, if_neg (by simp)] at ran
        rcases io_round_spec others true s cur (chunkSize s.sin cur endpos true) superOthers mounted map (near before) (by omega) with
          ⟨stopped, _⟩ | ⟨code, t, n, moved, round, grown, copied, _, success, failed, starved⟩
        · rw [stopped] at ran
          cases ran
        · rw [round] at ran
          have alen := copied.alen
          by_cases zero : code = 0
          · subst zero
            obtain ⟨all, below⟩ := success rfl
            subst all
            simp only [ok_bind, ne_eq, not_true_eq_false, if_false] at ran
            have blocks := grown.blocks
            have boundedT := grown.effect.map.bounded
            obtain ⟨more, bytes, stops⟩ := ih t (cur + chunkSize s.sin cur endpos true) grown.effect.mounted grown.effect.map (by omega) (by omega)
              (by omega) ran
            obtain ⟨m, k, blocksU, moves⟩ : ∃ m k, s'.sin.din.blocks = t.sin.din.blocks + m ∧
                Copied true t s' (cur + chunkSize s.sin cur endpos true) k := by
              rcases io_loop_spec others true endpos superOthers fuel t (cur + chunkSize s.sin cur endpos true) grown.effect.mounted
                grown.effect.map (by omega) (by omega) (fun reading => by cases reading) (by omega) with
                ⟨stopped, _⟩ | ⟨_, u, m, k, same, later, moves, _⟩
              · rw [stopped] at ran
                cases ran
              · rw [same] at ran
                obtain ⟨_, rfl⟩ := Prod.mk.inj (Except.ok.inj ran)
                exact ⟨m, k, later.blocks, moves⟩
            have alenU := moves.alen
            refine ⟨by omega, fun pos low high => ?_, fun works bad => ?_⟩
            · have sameBuf := (copied.written rfl).1
              by_cases late : cur + chunkSize s.sin cur endpos true ≤ pos
              · rw [bytes pos late (by omega), sameBuf, alen]
                congr 1
                omega
              · have first := io_round_written others s t cur _ superOthers mounted map (near before) (by omega) round pos low (by omega)
                rw [← first, (moves.written rfl).2 pos (by omega), if_neg (by omega)]
            · have ends := stops (grown.effect.step.results works) bad
              have place : cur + (s'.alen - s.alen) = cur + chunkSize s.sin cur endpos true + (s'.alen - t.alen) := by omega
              rw [place]
              refine ⟨ends.1, ?_⟩
              by_cases nothing : s'.alen = t.alen
              · have here := ends.1
                exact .inr (by omega)
              · exact .inr (ends.2.resolve_left nothing)
          · have idle := failed zero
            subst idle
            simp only [ok_bind, ne_eq, zero, not_false_eq_true, if_true, pure_ok, Except.ok.injEq, Prod.mk.injEq] at ran
            obtain ⟨rfl, rfl⟩ := ran
            refine ⟨by omega, fun pos low high => by omega, fun works bad => ?_⟩
            obtain ⟨_, still, here, _, _⟩ := starved works bad
            have blocks := grown.blocks
            exact ⟨by omega, .inl (by omega)⟩
      · rw [ioLoop, if_neg before] at ran
        simp only [Except.ok.injEq, Prod.mk.injEq] at ran
        obtain ⟨rfl, rfl⟩ := ran
        exact ⟨le_refl _, fun pos low high => by omega, fun _ bad => absurd rfl bad⟩

-- What a write of len bytes at pos owes when it has moved k of them and the file has
-- m new blocks: the bytes are in the file, and what was there is as before.
structure Written (others : Nat → Prop) (s s' : SfsFs) (i i' : SfsInode) (bytes : Bytes) (pos len k m : Nat) : Prop where
  grown : Grown others s s' i i' m
  within : k ≤ len
  stored : ∀ j, j < k → fileByte s' i'.din (pos + j) = bytes j
  kept : ∀ p, p / 4096 < i.din.blocks → ¬ (pos ≤ p ∧ p < pos + k) → fileByte s' i'.din p = fileByte s i.din p
  covered : 0 < k → pos + k ≤ (i.din.blocks + m) * 4096
  tight : 0 < m → i.din.blocks + m ≤ roundUpDiv (pos + len) 4096

-- The disk is full: the write has come to the end of the blocks of the file, and there
-- is no free block for the next one.
structure DiskFull (s : SfsFs) (i : SfsInode) (pos len k m : Nat) : Prop where
  more : i.din.blocks + m < roundUpDiv (pos + len) 4096
  short : s.super.unusedBlocks < needBlocks i.din (m + 1)
  place : (pos + k) / 4096 = i.din.blocks + m
  aligned : k = 0 ∨ (pos + k) % 4096 = 0

theorem io_write_chunk (others : Nat → Prop) (s : SfsFs) (i : SfsInode) (buf : Bytes) (pos len : Nat) (superOthers : others 0)
    (mounted : Mounted s) (map : FileMap s i.din others) (works : s.dev.results = []) (some' : 0 < len) (near : pos / 4096 ≤ i.din.blocks)
    (fits : pos + len ≤ 1036 * 4096) :
    ∃ ret s' m, sfsIo s i buf pos len true = .ok (ret, s') ∧ Written others s s'.sfs i s'.sin buf pos len s'.alen m ∧
      (s'.alen = len ∧ ret = 0 ∨ s'.alen < len ∧ ret = eNoMem ∧ DiskFull s i pos len s'.alen m) := by
  have limit : (maxFileSize : Int) = 134217728 := rfl
  have off : toOff ((pos : Int) + len) = pos + len := by
    simp only [toOff]
    exact Int.bmod_eq_of_le (by omega) (by omega)
  have moves : Moves (pos : Int) len := ⟨by omega, by omega, by omega⟩
  have stop : ioEnd (pos : Int) len = pos + len := by
    simp only [ioEnd]
    omega
  have start : (pos : Int).toNat = pos := rfl
  rcases io_write_spec others s i buf pos len superOthers mounted map moves near with
    ⟨_, exceeds, _⟩ | ⟨ret, s', m, ran, grown, copied, within, covers, complete, short⟩
  · rw [stop, roundUpDiv] at exceeds
    omega
  · have looped : ioLoop true (pos + len) ⟨buf, 0, s, i⟩ pos (pos + len - pos + 1) = .ok (ret, s') := by
      rw [sfsIo, io_nolock_write s i buf pos len map.type moves, stop, start] at ran
      obtain ⟨⟨code, t⟩, ends, ran⟩ := bind_ok ran
      obtain ⟨_, ran⟩ := check_bind_ok ran
      simp only [pure_ok, Except.ok.injEq, Prod.mk.injEq] at ran
      obtain ⟨rfl, rfl⟩ := ran
      exact ends
    obtain ⟨_, bytes, ends⟩ := io_loop_written others (pos + len) superOthers _ ⟨buf, 0, s, i⟩ s' pos ret mounted map (by omega)
      (fun _ => near) (by omega) looped
    simp only [Nat.sub_zero, Nat.zero_add] at bytes ends
    rw [stop, start] at within complete
    rw [stop] at covers short
    have blocks := grown.blocks
    have total := copied.alen
    have written : Written others s s'.sfs i s'.sin buf pos len s'.alen m := by
      refine ⟨grown, by omega, fun j inside => ?_, fun p inside away => ?_, fun moved => ?_, covers⟩
      · rw [bytes (pos + j) (by omega) (by omega), Nat.add_sub_cancel_left]
      · rw [(copied.written rfl).2 p inside]
        exact if_neg away
      · by_cases zero : ret = 0
        · obtain ⟨all, enough⟩ := complete zero
          simp only [roundUpDiv] at enough
          omega
        · have last := ends works zero
          omega
    refine ⟨ret, s', m, ran, written, ?_⟩
    by_cases zero : ret = 0
    · exact .inl ⟨by omega, zero⟩
    · obtain ⟨code, behind, missing⟩ := short works zero
      have last := ends works zero
      have more : i.din.blocks + m < roundUpDiv (pos + len) 4096 := by omega
      refine .inr ⟨?_, code, more, missing, by omega, last.2⟩
      have whole : pos + s'.alen ≤ pos + len := within
      simp only [roundUpDiv] at more
      omega

section Chunk

variable (others : Nat → Prop) (s t : SfsFs) (i j : SfsInode) (bytes : Bytes) (pos len chunk k m : Nat) (inside : chunk ≤ len)

include inside

-- A part of a longer write of the same bytes.
theorem written_part (user : Bytes) (same : ∀ l, l < chunk → bytes l = user l) (written : Written others s t i j bytes pos chunk k m) :
    Written others s t i j user pos len k m := by
  have within := written.within
  refine ⟨written.grown, by omega, fun l below => ?_, written.kept, written.covered, fun fresh => ?_⟩
  · rw [written.stored l below, same l (by omega)]
  · have reach := written.tight fresh
    simp only [roundUpDiv] at reach ⊢
    omega

theorem full_part (full : DiskFull s i pos chunk k m) : DiskFull s i pos len k m := by
  obtain ⟨more, short, place, aligned⟩ := full
  refine ⟨?_, short, place, aligned⟩
  simp only [roundUpDiv] at more ⊢
  omega

end Chunk

-- A chunk that was written whole, and what is written behind it.
section Behind

variable (others : Nat → Prop) (s t u : SfsFs) (i j k : SfsInode) (bytes : Bytes) (pos len chunk moved m n : Nat)
  (some' : 0 < chunk) (inside : chunk ≤ len)
  (first : Written others s t i j bytes pos chunk chunk m)

include some' inside first

theorem written_behind (second : Written others t u j k (bytes.from chunk) (pos + chunk) (len - chunk) moved n) :
    Written others s u i k bytes pos len (chunk + moved) (m + n) := by
  have blocks := first.grown.blocks
  have covered := first.covered some'
  have more := second.within
  refine ⟨grown_trans others s t u i j k m n first.grown second.grown, by omega, fun l below => ?_, fun p before away => ?_,
    fun _ => ?_, fun fresh => ?_⟩
  · by_cases early : l < chunk
    · rw [second.kept (pos + l) (by omega) (by omega), first.stored l early]
    · have late := second.stored (l - chunk) (by omega)
      rw [Bytes.from, show pos + chunk + (l - chunk) = pos + l by omega, show chunk + (l - chunk) = l by omega] at late
      exact late
  · rw [second.kept p (by omega) (by omega), first.kept p before (by omega)]
  · by_cases nothing : moved = 0
    · omega
    · have reach := second.covered (by omega)
      rw [blocks] at reach
      omega
  · by_cases later : 0 < n
    · have reach := second.tight later
      rw [blocks, show pos + chunk + (len - chunk) = pos + len by omega] at reach
      omega
    · have reach := first.tight (by omega)
      simp only [roundUpDiv] at reach ⊢
      omega

theorem full_behind (works : s.dev.results = []) (full : DiskFull t j (pos + chunk) (len - chunk) moved n) :
    DiskFull s i pos len (chunk + moved) (m + n) := by
  have blocks := first.grown.blocks
  have covered := first.covered some'
  have spent := first.grown.cost works
  have sum := need_append i.din j.din m (n + 1) blocks first.grown.indirect
  obtain ⟨more, short, place, aligned⟩ := full
  rw [show pos + chunk + (len - chunk) = pos + len by omega] at more
  refine ⟨by omega, ?_, by omega, .inr ?_⟩
  · rw [Nat.add_assoc, sum]
    omega
  · rw [← Nat.add_assoc]
    rcases aligned with nothing | whole
    · omega
    · exact whole

end Behind

end Ucore.Sfs
