import Ucore.Sfs.FileGrow

set_option autoImplicit false

namespace Ucore.Sfs

open Ucore.Lib

-- sfs_bmap_load_nolock at an index the file has or the next one.
theorem bmap_load_spec (others : Nat → Prop) (s : SfsFs) (i : SfsInode) (index : Nat) (superOthers : others 0) (mounted : Mounted s)
    (map : FileMap s i.din others) (near : index ≤ i.din.blocks) (room : index < 1036) :
    ∃ ret ino s' i' n, sfsBmapLoadNolock s i index = .ok (ret, ino, s', i') ∧ Grown others s s' i i' n ∧
      (ret = 0 → index < i.din.blocks + n ∧ ino = slot s' i'.din index) ∧ (0 < n → n = 1 ∧ index = i.din.blocks ∧ ret = 0) ∧
      (s.dev.results = [] → ret ≠ 0 → ret = eNoMem ∧ index = i.din.blocks ∧ s.super.unusedBlocks < needBlocks i.din 1) ∧
      ∀ pos, pos / 4096 < i.din.blocks → fileByte s' i'.din pos = fileByte s i.din pos := by
  by_cases below : index < i.din.blocks
  · obtain ⟨ret, ino, t, quiet, success, found, loaded⟩ := bmap_load_mapped s i index mounted map.bounded (map_in_use s i.din others map) below
    have grown := quiet_grown others s t i mounted map quiet
    refine ⟨ret, ino, t, i, 0, loaded, grown, fun zero => ⟨below, ?_⟩, fun positive => absurd positive (by omega),
      fun none failed => absurd (success none) failed, fun pos inside => ?_⟩
    · rw [grown.slots index below]
      exact found zero
    · exact refused_bytes others s t i map (refused_quiet s t quiet mounted) pos inside
  · have here : index = i.din.blocks := by omega
    subst here
    rcases bmap_append_spec s i others mounted map room with ⟨s', i', loaded, appended⟩ | ⟨ret, s', failed, loaded, refused, blame⟩
    · refine ⟨0, _, s', i', 1, loaded, appended_grown others s s' i i' superOthers map room appended, fun _ => ⟨by omega, rfl⟩,
        fun _ => ⟨rfl, rfl, rfl⟩, fun _ failed => absurd rfl failed, fun pos inside => ?_⟩
      exact appended_bytes others s s' i i' map appended pos inside
    · refine ⟨ret, 0, s', i, 0, loaded, refused_grown others s s' i map refused, fun zero => absurd zero failed,
        fun positive => absurd positive (by omega), fun none _ => ?_, fun pos inside => ?_⟩
      · obtain ⟨code, short⟩ := blame none
        exact ⟨code, rfl, by rw [need_one s i.din others map]; exact short⟩
      · exact refused_bytes others s s' i map refused pos inside

-- What a piece of the copy loop did to the bytes of the file and of the buffer:
-- the bytes from cur on moved between them.
structure Copied (write : Bool) (s s' : IoState) (cur moved : Nat) : Prop where
  alen : s'.alen = s.alen + moved
  written : write = true → s'.buf = s.buf ∧ ∀ pos, pos / 4096 < s.sin.din.blocks → fileByte s'.sfs s'.sin.din pos =
    if cur ≤ pos ∧ pos < cur + moved then s.buf (s.alen + (pos - cur)) else fileByte s.sfs s.sin.din pos
  read : write = false → (∀ pos, pos / 4096 < s.sin.din.blocks → fileByte s'.sfs s'.sin.din pos = fileByte s.sfs s.sin.din pos) ∧
    ∀ k, cur + moved ≤ s.sin.din.blocks * 4096 →
      s'.buf k = if s.alen ≤ k ∧ k < s.alen + moved then fileByte s.sfs s.sin.din (cur + (k - s.alen)) else s.buf k

theorem copied_nothing (write : Bool) (s s' : IoState) (cur : Nat) (buf : s'.buf = s.buf) (alen : s'.alen = s.alen)
    (bytes : ∀ pos, pos / 4096 < s.sin.din.blocks → fileByte s'.sfs s'.sin.din pos = fileByte s.sfs s.sin.din pos) :
    Copied write s s' cur 0 := by
  refine ⟨by omega, fun _ => ⟨buf, fun pos inside => ?_⟩, fun _ => ⟨bytes, fun k _ => ?_⟩⟩
  · rw [bytes pos inside, if_neg (by omega)]
  · rw [buf, if_neg (by omega)]

theorem copied_trans (write : Bool) (s t u : IoState) (cur n m : Nat) (more : s.sin.din.blocks ≤ t.sin.din.blocks)
    (first : Copied write s t cur n) (second : Copied write t u (cur + n) m) : Copied write s u cur (n + m) := by
  have alen := first.alen
  refine ⟨by rw [second.alen, alen, Nat.add_assoc], fun writing => ?_, fun reading => ?_⟩
  · obtain ⟨buf, bytes⟩ := first.written writing
    obtain ⟨later, laterBytes⟩ := second.written writing
    refine ⟨later.trans buf, fun pos inside => ?_⟩
    rw [laterBytes pos (by omega)]
    by_cases inSecond : cur + n ≤ pos ∧ pos < cur + n + m
    · rw [if_pos inSecond, if_pos (by omega), buf, alen]
      congr 1
      omega
    · rw [if_neg inSecond, bytes pos inside]
      by_cases inFirst : cur ≤ pos ∧ pos < cur + n
      · rw [if_pos inFirst, if_pos (by omega)]
      · rw [if_neg inFirst, if_neg (by omega)]
  · obtain ⟨bytes, buf⟩ := first.read reading
    obtain ⟨laterBytes, later⟩ := second.read reading
    refine ⟨fun pos inside => (laterBytes pos (by omega)).trans (bytes pos inside), fun k inside => ?_⟩
    rw [later k (by omega), buf k (by omega), alen]
    by_cases inSecond : s.alen + n ≤ k ∧ k < s.alen + n + m
    · rw [if_pos inSecond, if_pos (by omega), bytes _ (by omega)]
      congr 1
      omega
    · rw [if_neg inSecond]
      by_cases inFirst : s.alen ≤ k ∧ k < s.alen + n
      · rw [if_pos inFirst, if_pos (by omega)]
      · rw [if_neg inFirst, if_neg (by omega)]

-- A transfer inside one block that the file has.
theorem buf_op_spec (others : Nat → Prop) (write : Bool) (s : IoState) (cur size : Nat) (mounted : Mounted s.sfs)
    (map : FileMap s.sfs s.sin.din others) (below : cur / 4096 < s.sin.din.blocks) (inBlock : cur % 4096 + size ≤ 4096) :
    ∃ ret chunk sfs', sfsBufOp write s.sfs (s.buf.from s.alen) size (slot s.sfs s.sin.din (cur / 4096)) (cur % 4096) =
        .ok (ret, chunk, sfs') ∧ (s.sfs.dev.results = [] → ret = 0) ∧ Grown others s.sfs sfs' s.sin s.sin 0 ∧
      (ret = 0 → Copied write s ⟨memcpy s.buf s.alen chunk size, s.alen + size, sfs', s.sin⟩ cur size) ∧
      (ret ≠ 0 → ∀ pos, pos / 4096 < s.sin.din.blocks → fileByte sfs' s.sin.din pos = fileByte s.sfs s.sin.din pos) := by
  obtain ⟨named, bound, _, _⟩ := map.owned _ (Or.inr ⟨cur / 4096, below, rfl⟩)
  have start : cur % 4096 < 4096 := Nat.mod_lt _ (by decide)
  cases write with
  | true =>
      obtain ⟨ret, t, quiet, success, wrote⟩ := wbuf_spec s.sfs (s.buf.from s.alen) size _ (cur % 4096) mounted named bound start inBlock
      have mountedT := quiet_mounted s.sfs t quiet mounted
      have grownT := quiet_grown others s.sfs t s.sin mounted map quiet
      have bytesT := refused_bytes others s.sfs t s.sin map (refused_quiet s.sfs t quiet mounted)
      have sameBuf : memcpy s.buf s.alen (s.buf.from s.alen) size = s.buf := by
        funext k
        by_cases inside : s.alen ≤ k ∧ k < s.alen + size
        · rw [memcpy_inside _ _ _ _ _ inside.1 inside.2, Bytes.from]
          congr 1
          omega
        · rw [memcpy_outside _ _ _ _ _ (by omega)]
      by_cases zero : ret = 0
      · simp only [zero, if_true] at wrote
        have sameSlot : slot t s.sin.din (cur / 4096) = slot s.sfs s.sin.din (cur / 4096) := grownT.slots _ below
        obtain ⟨grownU, bytesU⟩ := store_grown others t s.sin (cur / 4096)
          (memcpy (s.sfs.dev.data (slot s.sfs s.sin.din (cur / 4096))) (cur % 4096) (s.buf.from s.alen) size) mountedT
          grownT.effect.map below
        rw [sameSlot] at grownU bytesU
        refine ⟨0, _, _, by rw [sfsBufOp, if_pos rfl, wrote], fun _ => rfl,
          by simpa using grown_trans others _ _ _ _ _ _ _ _ grownT grownU, fun _ => ⟨rfl, fun _ => ⟨sameBuf, fun pos inside => ?_⟩,
            fun reading => by cases reading⟩, fun failed => absurd rfl failed⟩
        simp only
        rw [bytesU pos inside]
        by_cases block : pos / 4096 = cur / 4096
        · rw [if_pos block]
          by_cases moved : cur ≤ pos ∧ pos < cur + size
          · rw [if_pos moved, memcpy_inside _ _ _ _ _ (by omega) (by omega), Bytes.from]
            congr 1
            omega
          · rw [if_neg moved, memcpy_outside _ _ _ _ _ (by omega), fileByte, block]
        · rw [if_neg block, if_neg (by omega), bytesT pos inside]
      · simp only [zero, if_false] at wrote
        exact ⟨ret, _, t, by rw [sfsBufOp, if_pos rfl, wrote], success, grownT, fun same => absurd same zero, fun _ => bytesT⟩
  | false =>
      obtain ⟨ret, t, quiet, success, read⟩ := rbuf_spec s.sfs (s.buf.from s.alen) size _ (cur % 4096) mounted named bound start inBlock
      have bytesT := refused_bytes others s.sfs t s.sin map (refused_quiet s.sfs t quiet mounted)
      refine ⟨ret, _, t, by rw [sfsBufOp, if_neg (by decide), read], success, quiet_grown others s.sfs t s.sin mounted map quiet,
        fun zero => ⟨rfl, fun writing => (by cases writing), fun _ => ⟨bytesT, fun k _ => ?_⟩⟩, fun _ => bytesT⟩
      simp only [zero, if_true]
      by_cases moved : s.alen ≤ k ∧ k < s.alen + size
      · rw [if_pos moved, memcpy_inside _ _ _ _ _ moved.1 moved.2, memcpy_inside _ _ _ _ _ (by omega) (by omega), Bytes.from, fileByte]
        have sameBlock : (cur + (k - s.alen)) / 4096 = cur / 4096 := by omega
        have sameByte : cur % 4096 + (k - s.alen - 0) = (cur + (k - s.alen)) % 4096 := by omega
        rw [sameBlock, sameByte]
      · rw [if_neg moved, memcpy_outside _ _ _ _ _ (by omega)]

theorem io_round_spec (others : Nat → Prop) (write : Bool) (s : IoState) (cur size : Nat) (superOthers : others 0)
    (mounted : Mounted s.sfs) (map : FileMap s.sfs s.sin.din others) (near : cur / 4096 ≤ s.sin.din.blocks)
    (inBlock : cur % 4096 + size ≤ 4096) :
    (ioRound write s cur size = .error .indexOutOfRange ∧ cur / 4096 = 1036) ∨
    ∃ ret s' n moved, ioRound write s cur size = .ok (ret, s') ∧ Grown others s.sfs s'.sfs s.sin s'.sin n ∧
      Copied write s s' cur moved ∧ (0 < n → n = 1 ∧ cur / 4096 = s.sin.din.blocks) ∧
      (ret = 0 → moved = size ∧ cur / 4096 < s.sin.din.blocks + n) ∧ (ret ≠ 0 → moved = 0) ∧
      (s.sfs.dev.results = [] → ret ≠ 0 → ret = eNoMem ∧ n = 0 ∧ cur / 4096 = s.sin.din.blocks ∧ s.sin.din.blocks < 1036 ∧
        s.sfs.super.unusedBlocks < needBlocks s.sin.din 1) := by
  have bounded := map.bounded
  by_cases last : cur / 4096 = 1036
  · have full : s.sin.din.blocks = 1036 := by omega
    refine Or.inl ⟨?_, last⟩
    simp [ioRound, blkSize, last, bmap_load_full s.sfs s.sin full]
  · obtain ⟨ret, ino, sfs', i', n, loaded, grown, found, appended, starved, bytes⟩ :=
      bmap_load_spec others s.sfs s.sin (cur / 4096) superOthers mounted map near (by omega)
    let mid : IoState := ⟨s.buf, s.alen, sfs', i'⟩
    have idle : Copied write s mid cur 0 := copied_nothing write s mid cur rfl rfl bytes
    right
    by_cases zero : ret = 0
    · obtain ⟨below, here⟩ := found zero
      have belowMid : cur / 4096 < mid.sin.din.blocks := by
        rw [grown.blocks]
        exact below
      obtain ⟨ret', chunk, sfs'', moved, success, still, copied, lost⟩ :=
        buf_op_spec others write mid cur size grown.effect.mounted grown.effect.map belowMid inBlock
      have whole := grown_trans others _ _ _ _ _ _ _ _ grown still
      have op : sfsBufOp write sfs' (s.buf.from s.alen) size ino (cur % 4096) = .ok (ret', chunk, sfs'') := by
        rw [here]
        exact moved
      by_cases zero' : ret' = 0
      · refine ⟨0, ⟨memcpy s.buf s.alen chunk size, s.alen + size, sfs'', i'⟩, n, size, ?_, by simpa using whole, ?_, fun positive => ⟨(appended positive).1, (appended positive).2.1⟩,
          fun _ => ⟨rfl, below⟩, fun failed => absurd rfl failed, fun _ failed => absurd rfl failed⟩
        · simp only [ioRound, blkSize, loaded, ok_bind, zero, ne_eq, not_true_eq_false, if_false, op, zero', pure_ok]
        · simpa using copied_trans write s mid _ cur 0 size (by simp only [mid]; rw [grown.blocks]; omega) idle (copied zero')
      · refine ⟨ret', ⟨s.buf, s.alen, sfs'', i'⟩, n, 0, ?_, by simpa using whole, ?_,
          fun positive => ⟨(appended positive).1, (appended positive).2.1⟩, fun same => absurd same zero', fun _ => rfl,
          fun none failed => absurd (success (grown.effect.step.results none)) failed⟩
        · simp only [ioRound, blkSize, loaded, ok_bind, zero, ne_eq, not_true_eq_false, if_false, op, zero', not_false_eq_true,
            if_true, pure_ok]
        · refine copied_nothing write s _ cur rfl rfl fun pos inside => ?_
          exact (lost zero' pos (by simp only [mid]; rw [grown.blocks]; omega)).trans (bytes pos inside)
    · have idleN : n = 0 := by
        by_contra positive
        exact zero (appended (by omega)).2.2
      refine ⟨ret, mid, n, 0, ?_, grown, idle, fun positive => ⟨(appended positive).1, (appended positive).2.1⟩,
        fun same => absurd same zero, fun _ => rfl, fun none failed => ?_⟩
      · simp only [ioRound, blkSize, loaded, ok_bind, zero, ne_eq, not_false_eq_true, if_true, pure_ok, mid]
      · obtain ⟨code, here, short⟩ := starved none failed
        exact ⟨code, idleN, here, by omega, short⟩

theorem chunk_size_spec (i : SfsInode) (cur endpos : Nat) (write : Bool) (before : cur < endpos)
    (reads : write = false → endpos ≤ i.din.size) :
    chunkSize i cur endpos write = min (endpos - cur) (4096 - cur % 4096) := by
  have small : cur % 4096 < 4096 := Nat.mod_lt _ (by decide)
  have whole : (if endpos < cur + (4096 - cur % 4096) then endpos - cur else 4096 - cur % 4096) =
      min (endpos - cur) (4096 - cur % 4096) := by
    by_cases exceeds : endpos < cur + (4096 - cur % 4096)
    · rw [if_pos exceeds]
      omega
    · rw [if_neg exceeds]
      omega
  have size : blkSize = 4096 := rfl
  rw [chunkSize, size]
  cases write with
  | true => exact whole
  | false =>
      have bound := reads rfl
      exact (if_neg (by rw [whole]; omega)).trans whole

-- The loop moves the bytes up to endpos, one block at a time. It stops early at
-- a failed block, and goes wrong at the first index past the mapped ones.
theorem io_loop_spec (others : Nat → Prop) (write : Bool) (endpos : Nat) (superOthers : others 0) (fuel : Nat) (s : IoState) (cur : Nat)
    (mounted : Mounted s.sfs) (map : FileMap s.sfs s.sin.din others) (inRange : cur ≤ endpos)
    (near : cur < endpos → cur / 4096 ≤ s.sin.din.blocks) (reads : write = false → endpos ≤ s.sin.din.size)
    (enough : endpos - cur < fuel) :
    (ioLoop write endpos s cur fuel = .error .indexOutOfRange ∧ cur < endpos ∧ 1036 < roundUpDiv endpos 4096 ∧
      (s.sfs.dev.results = [] → needBlocks s.sin.din (1036 - s.sin.din.blocks) ≤ s.sfs.super.unusedBlocks)) ∨
    ∃ ret s' n moved, ioLoop write endpos s cur fuel = .ok (ret, s') ∧ Grown others s.sfs s'.sfs s.sin s'.sin n ∧
      Copied write s s' cur moved ∧ cur + moved ≤ endpos ∧ (0 < n → s.sin.din.blocks + n ≤ roundUpDiv endpos 4096) ∧
      (ret = 0 → cur + moved = endpos ∧ (cur < endpos → roundUpDiv endpos 4096 ≤ s.sin.din.blocks + n)) ∧
      (s.sfs.dev.results = [] → ret ≠ 0 → ret = eNoMem ∧ s.sin.din.blocks + n < min (roundUpDiv endpos 4096) 1036 ∧
        s.sfs.super.unusedBlocks < needBlocks s.sin.din (n + 1)) := by
  induction fuel generalizing s cur with
  | zero => omega
  | succ fuel ih =>
      have bounded := map.bounded
      by_cases before : cur < endpos
      · have chunk := chunk_size_spec s.sin cur endpos write before reads
        have small : cur % 4096 < 4096 := Nat.mod_lt _ (by decide)
        have some : chunkSize s.sin cur endpos write ≠ 0 := by omega
        simp only [roundUpDiv] at ih ⊢
        rw [ioLoop, if_pos before, if_neg (by simp [some])]
        rcases io_round_spec others write s cur (chunkSize s.sin cur endpos write) superOthers mounted map (near before) (by omega) with
          ⟨stopped, last⟩ | ⟨ret, t, n, moved, ran, grown, copied, appended, success, failed, starved⟩
        · refine Or.inl ⟨by rw [stopped]; rfl, before, by omega, fun _ => ?_⟩
          have full : s.sin.din.blocks = 1036 := by
            have close := near before
            omega
          simp [needBlocks, full]
        · rw [ran]
          simp only [ok_bind]
          by_cases zero : ret = 0
          · simp only [zero, ne_eq, not_true_eq_false, if_false]
            obtain ⟨all, below⟩ := success zero
            subst all
            have blocks := grown.blocks
            have boundedT := grown.effect.map.bounded
            rcases ih t (cur + chunkSize s.sin cur endpos write) grown.effect.mounted grown.effect.map (by omega) (by omega)
              (fun reading => by rw [grown.size]; exact reads reading) (by omega) with
              ⟨stopped, later, exceeds, plenty⟩ | ⟨ret', u, m, more, rest, grownU, copiedU, within, covers, complete, short⟩
            · refine Or.inl ⟨stopped, before, exceeds, fun none => ?_⟩
              have spent := grown.cost none
              have left := plenty (grown.effect.step.results none)
              have sum := need_append s.sin.din t.sin.din n (1036 - t.sin.din.blocks) blocks grown.indirect
              rw [show n + (1036 - t.sin.din.blocks) = 1036 - s.sin.din.blocks by omega] at sum
              omega
            · refine Or.inr ⟨ret', u, n + m, chunkSize s.sin cur endpos write + more, rest,
                grown_trans others _ _ _ _ _ _ _ _ grown grownU, copied_trans write s t u cur _ more (by omega) copied copiedU,
                by omega, fun positive => ?_, fun done => ?_, fun none bad => ?_⟩
              · by_cases fresh : 0 < m
                · have cover := covers fresh
                  omega
                · have one := appended (by omega)
                  omega
              · obtain ⟨reached, cover⟩ := complete done
                refine ⟨by omega, fun _ => ?_⟩
                by_cases later : cur + chunkSize s.sin cur endpos write < endpos
                · have covered := cover later
                  omega
                · omega
              · obtain ⟨code, behind, missing⟩ := short (grown.effect.step.results none) bad
                have spent := grown.cost none
                have sum := need_append s.sin.din t.sin.din n (m + 1) blocks grown.indirect
                rw [Nat.add_assoc]
                exact ⟨code, by omega, by omega⟩
          · simp only [ne_eq, zero, not_false_eq_true, if_true, pure_ok]
            have idle := failed zero
            subst idle
            refine Or.inr ⟨ret, t, n, 0, rfl, grown, copied, by omega, fun positive => ?_, fun same => absurd same zero,
              fun none bad => ?_⟩
            · have one := appended positive
              omega
            · obtain ⟨code, still, here, room, short⟩ := starved none bad
              subst still
              exact ⟨code, by omega, short⟩
      · have atEnd : cur = endpos := by omega
        have ended : ioLoop write endpos s cur (fuel + 1) = .ok (0, s) := by rw [ioLoop, if_neg before]
        refine Or.inr ⟨0, s, 0, 0, ended, quiet_grown others s.sfs s.sfs s.sin mounted map (quiet_refl s.sfs),
          copied_nothing write s s cur rfl rfl fun _ _ => rfl, by omega, fun positive => absurd positive (by omega),
          fun _ => ⟨by omega, fun earlier => absurd earlier before⟩, fun _ bad => absurd rfl bad⟩

theorem io_loop_past (write : Bool) (endpos : Nat) (s : IoState) (cur fuel : Nat) (before : cur < endpos)
    (past : s.sin.din.blocks < cur / 4096) (reads : write = false → endpos ≤ s.sin.din.size) :
    ioLoop write endpos s cur (fuel + 1) = .error .indexPastBlocks := by
  have chunk := chunk_size_spec s.sin cur endpos write before reads
  have small : cur % 4096 < 4096 := Nat.mod_lt _ (by decide)
  have some : chunkSize s.sin cur endpos write ≠ 0 := by omega
  rw [ioLoop, if_pos before, if_neg (by simp [some])]
  simp [ioRound, blkSize, bmap_load_past s.sfs s.sin _ past]

end Ucore.Sfs
