import Ucore.Sfs.BlockMap

set_option autoImplicit false

namespace Ucore.Sfs

open Ucore.Lib

-- The free blocks one more block of a file takes.
def growCost (din : SfsDiskInode) : Nat := if din.blocks = 12 ∧ din.indirect = 0 then 2 else 1

-- A block was appended to the file.
structure Appended (s s' : SfsFs) (i i' : SfsInode) : Prop where
  inode : i' = { i with
    din := { i.din with blocks := i.din.blocks + 1, direct := i'.din.direct, indirect := i'.din.indirect }
    dirty := i'.dirty }
  mounted : Mounted s'
  step : FsStep (fun b => s.freemap.bit b = false ∧ (b ≠ i.din.indirect ∨ b = 0)) s s'
  slots : ∀ k, k < 1036 → k ≠ i.din.blocks → slot s' i'.din k = slot s i.din k
  fresh : s.freemap.bit (slot s' i'.din i.din.blocks) = true
  freshNamed : slot s' i'.din i.din.blocks ≠ 0
  freshBound : slot s' i'.din i.din.blocks < s.super.blocks
  indirect : i'.din.indirect = i.din.indirect ∨ (i.din.indirect = 0 ∧ i.din.blocks = 12 ∧
    s.freemap.bit i'.din.indirect = true ∧ i'.din.indirect < s.super.blocks ∧ i'.din.indirect ≠ slot s' i'.din i.din.blocks)
  bits : ∀ b, s'.freemap.bit b = (s.freemap.bit b && b != slot s' i'.din i.din.blocks && b != i'.din.indirect)
  cost : s'.super.unusedBlocks + growCost i.din = s.super.unusedBlocks
  dirty : i'.dirty = true ∨ (12 ≤ i.din.blocks ∧ i.din.indirect ≠ 0 ∧ i'.dirty = i.dirty)

theorem slot_direct (s : SfsFs) (din : SfsDiskInode) (k : Nat) (bound : k < 12) : slot s din k = din.direct ⟨k, bound⟩ := by
  simp [slot, bound]

theorem slot_indirect (s : SfsFs) (din : SfsDiskInode) (k : Nat) (bound : 12 ≤ k) (placed : din.indirect ≠ 0) :
    slot s din k = getLe (s.dev.data din.indirect) ((k - 12) * 4) 4 := by
  have exceeds : ¬ k < 12 := by omega
  simp [slot, exceeds, placed]

theorem slot_absent (s : SfsFs) (din : SfsDiskInode) (k : Nat) (bound : 12 ≤ k) (absent : din.indirect = 0) : slot s din k = 0 := by
  have exceeds : ¬ k < 12 := by omega
  simp [slot, exceeds, absent]

-- Without an indirect block a file has at most the direct blocks.
theorem indirect_needed (s : SfsFs) (din : SfsDiskInode) (others : Nat → Prop) (map : FileMap s din others)
    (absent : din.indirect = 0) : din.blocks ≤ 12 := by
  by_contra more
  exact map.mapped 12 (by omega) (slot_absent s din 12 (by omega) absent)

theorem entry_same (bytes : Bytes) (k ino : Nat) (small : ino < 2 ^ 20) :
    getLe (memcpy bytes (k * 4) (toLe ino) 4) (k * 4) 4 = ino := by
  rw [get_le_memcpy_same, get_le_to_le ino 4 (by omega)]

theorem entry_other (bytes : Bytes) (k l ino : Nat) (apart : l ≠ k) :
    getLe (memcpy bytes (k * 4) (toLe ino) 4) (l * 4) 4 = getLe bytes (l * 4) 4 :=
  get_le_memcpy_other bytes (toLe ino) (k * 4) 4 (l * 4) 4 (by omega)

theorem refused_after (s t u : SfsFs) (quiet : Quiet s t) (refused : Refused t u) : Refused s u := by
  obtain ⟨_, rfl, still⟩ := quiet
  refine ⟨refused.mounted, ⟨refused.step.super, refused.step.dBlocks, refused.step.nbits, refused.step.nwords, refused.step.data,
    refused.step.used, refused.step.clean, fun none => refused.step.results (still none)⟩, fun none => refused.restored (still none)⟩

theorem check_out_spec (s : SfsFs) (ino : Nat) (mounted : Mounted s) (bound : ino < s.super.blocks)
    (used : s.freemap.bit ino = false) : bmapCheckOut s ino = .ok () := by
  by_cases absent : ino = 0
  · simp [bmapCheckOut, absent]
  · simp [bmapCheckOut, absent, block_inuse_spec s ino mounted absent bound, used]

theorem append_direct (s : SfsFs) (i : SfsInode) (others : Nat → Prop) (mounted : Mounted s) (map : FileMap s i.din others)
    (bound : i.din.blocks < 12) :
    (∃ s' i', sfsBmapLoadNolock s i i.din.blocks = .ok (0, slot s' i'.din i.din.blocks, s', i') ∧ Appended s s' i i') ∨
    ∃ ret s', ret ≠ 0 ∧ sfsBmapLoadNolock s i i.din.blocks = .ok (ret, 0, s', i) ∧ Refused s s' ∧
      (s.dev.results = [] → ret = eNoMem ∧ s.super.unusedBlocks < growCost i.din) := by
  have absent : i.din.direct ⟨i.din.blocks, bound⟩ = 0 := by
    rw [← slot_direct s i.din i.din.blocks bound]
    exact map.unmapped i.din.blocks (by omega) (by omega)
  have one : growCost i.din = 1 := by
    have other : i.din.blocks ≠ 12 := by omega
    simp [growCost, other]
  rcases block_alloc_spec s mounted with ⟨full, none⟩ | ⟨ret, ino, t, result, success, taken⟩
  · refine Or.inr ⟨eNoMem, s, by decide, ?_, refused_quiet s s (quiet_refl s) mounted, fun _ => ⟨rfl, by omega⟩⟩
    simp [sfsBmapLoadNolock, sfsBmapGetNolock, bound, absent, full, eNoMem]
  · by_cases zero : ret = 0
    · simp only [zero, if_true] at taken
      have mountedT := taken_mounted s t ino _ taken mounted
      have used : t.freemap.bit ino = false := by simp [taken.bits ino]
      have boundT : ino < t.super.blocks := by
        rw [taken.super]
        exact taken.bound
      let i' : SfsInode := { i with
        din := { i.din with blocks := i.din.blocks + 1, direct := Function.update i.din.direct ⟨i.din.blocks, bound⟩ ino }
        dirty := true }
      have here : slot t i'.din i.din.blocks = ino := by
        rw [slot_direct t i'.din i.din.blocks bound]
        simp [i']
      refine Or.inl ⟨t, i', ?_, ?_⟩
      · rw [here]
        simp [sfsBmapLoadNolock, sfsBmapGetNolock, bound, absent, result, zero, check_out_spec t ino mountedT boundT used,
          block_inuse_spec t ino mountedT taken.named boundT, used, i']
      · refine ⟨rfl, mountedT, ?_, ?_, ?_, ?_, ?_, Or.inl rfl, ?_, ?_, Or.inl rfl⟩
        · exact taken_step _ s t ino _ taken (by simp [taken.free]) fun b other => by simp [other]
        · intro k small apart
          by_cases direct : k < 12
          · rw [slot_direct t i'.din k direct, slot_direct s i.din k direct]
            simp [i', apart]
          · by_cases absentIndirect : i.din.indirect = 0
            · rw [slot_absent t i'.din k (by omega) absentIndirect, slot_absent s i.din k (by omega) absentIndirect]
            · rw [slot_indirect t i'.din k (by omega) absentIndirect, slot_indirect s i.din k (by omega) absentIndirect]
              have owned := (map.owned i.din.indirect (Or.inl ⟨rfl, absentIndirect⟩)).2.2.1
              have other : i.din.indirect ≠ ino := by
                rintro same
                rw [same, taken.free] at owned
                cases owned
              simp [i', taken.data, other]
        · rw [here]
          exact taken.free
        · rw [here]
          exact taken.named
        · rw [here]
          exact taken.bound
        · intro b
          rw [here, taken.bits b]
          by_cases atIndirect : b = i.din.indirect
          · have off : s.freemap.bit b = false := by
              by_cases absentIndirect : i.din.indirect = 0
              · rw [atIndirect, absentIndirect]
                exact mounted.superUsed
              · rw [atIndirect]
                exact (map.owned i.din.indirect (Or.inl ⟨rfl, absentIndirect⟩)).2.2.1
            simp [off]
          · have other : b ≠ i'.din.indirect := atIndirect
            simp [other]
        · rw [taken.super, one]
          have available := taken.available
          simp only
          omega
    · simp only [zero, if_false] at taken
      refine Or.inr ⟨ret, t, zero, ?_, ⟨taken_mounted s t ino _ taken mounted, ?_, ?_⟩, ?_⟩
      · simp [sfsBmapLoadNolock, sfsBmapGetNolock, bound, absent, result, zero]
      · exact taken_step _ s t ino _ taken (by simp [taken.free]) fun _ _ => rfl
      · exact fun none => absurd (success none) zero
      · exact fun none => absurd (success none) zero

theorem append_placed (s : SfsFs) (i : SfsInode) (others : Nat → Prop) (mounted : Mounted s) (map : FileMap s i.din others)
    (exceeds : 12 ≤ i.din.blocks) (room : i.din.blocks < 1036) (placed : i.din.indirect ≠ 0) :
    (∃ s' i', sfsBmapLoadNolock s i i.din.blocks = .ok (0, slot s' i'.din i.din.blocks, s', i') ∧ Appended s s' i i') ∨
    ∃ ret s', ret ≠ 0 ∧ sfsBmapLoadNolock s i i.din.blocks = .ok (ret, 0, s', i) ∧ Refused s s' ∧
      (s.dev.results = [] → ret = eNoMem ∧ s.super.unusedBlocks < growCost i.din) := by
  obtain ⟨_, boundEnt, usedEnt, _⟩ := map.owned i.din.indirect (Or.inl ⟨rfl, placed⟩)
  have one : growCost i.din = 1 := by simp [growCost, placed]
  have direct : ¬ i.din.blocks < 12 := by omega
  have small : i.din.blocks - nDirect < blkNentry := by
    simp only [nDirect, blkNentry, blkSize]
    omega
  obtain ⟨ret, t, quiet, success, read⟩ := rbuf_spec s zeroBytes 4 i.din.indirect ((i.din.blocks - nDirect) * 4) mounted placed
    boundEnt (by simp only [nDirect]; omega) (by simp only [nDirect]; omega)
  have mountedT := quiet_mounted s t quiet mounted
  by_cases zero : ret = 0
  · simp only [zero, if_true] at read
    have entry : getLe (memcpy zeroBytes 0 ((s.dev.data i.din.indirect).from ((i.din.blocks - nDirect) * 4)) 4) 0 4 = 0 := by
      have unmapped := map.unmapped i.din.blocks (by omega) room
      rw [slot_indirect s i.din i.din.blocks exceeds placed] at unmapped
      rw [get_le_memcpy_same]
      exact (get_le_congr _ _ 0 ((i.din.blocks - 12) * 4) 4 fun k _ => by simp [Bytes.from, nDirect]).trans unmapped
    obtain ⟨results, rfl, still⟩ := quiet
    rcases get_sub_create_placed _ i.din.indirect (i.din.blocks - nDirect) mountedT placed boundEnt usedEnt
      (by simp only [nDirect]; omega) with ⟨ino, u, v, result, taken, quietV⟩ | ⟨ret', s', failed, result, refused, blame⟩
    · obtain ⟨results', rfl, still'⟩ := quietV
      have other : i.din.indirect ≠ ino := by
        rintro same
        have free := taken.free
        rw [← same] at free
        simp [usedEnt] at free
      have mountedU := taken_mounted _ u ino _ taken mountedT
      have usedU : u.freemap.bit ino = false := by simp [taken.bits ino]
      have boundU : ino < u.super.blocks := by
        rw [taken.super]
        exact taken.bound
      let s' := ({ u with dev := { u.dev with results := results' } } : SfsFs).store i.din.indirect
        (memcpy (s.dev.data i.din.indirect) ((i.din.blocks - nDirect) * 4) (toLe ino) 4)
      let i' : SfsInode := { i with din := { i.din with blocks := i.din.blocks + 1 } }
      have mounted' : Mounted s' :=
        store_mounted _ _ _ (quiet_mounted u _ ⟨results', rfl, still'⟩ mountedU)
      have content : s'.dev.data i.din.indirect =
          memcpy (s.dev.data i.din.indirect) ((i.din.blocks - nDirect) * 4) (toLe ino) 4 := by simp [s', SfsFs.store]
      have here : slot s' i'.din i.din.blocks = ino := by
        rw [slot_indirect s' i'.din i.din.blocks exceeds placed]
        have limit := mounted.small
        have lower : ino < s.super.blocks := taken.bound
        exact (congrArg (fun bytes => getLe bytes _ 4) content).trans (entry_same _ (i.din.blocks - 12) ino (by omega))
      refine Or.inl ⟨s', i', ?_, ⟨rfl, mounted', ?_, ?_, ?_, ?_, ?_, Or.inl rfl, ?_, ?_, Or.inr ⟨exceeds, placed, rfl⟩⟩⟩
      · rw [here]
        have inuse : sfsBlockInuse s' ino = .ok true := by
          rw [block_inuse_spec s' ino mounted' taken.named boundU]
          exact congrArg _ (congrArg not usedU)
        have out : bmapCheckOut s' ino = .ok () := check_out_spec s' ino mounted' boundU usedU
        simp only [sfsBmapLoadNolock, sfsBmapGetNolock, direct, small, sfsBmapGetSubNolock, placed, read, entry, result, le_refl,
          decide_true, check_true, ok_bind, pure_ok, dite_false, if_true, ne_eq, not_true_eq_false, not_false_eq_true, if_false,
          Bool.not_true, Bool.false_eq_true, or_self]
        rw [show bmapCheckOut _ ino = .ok () from out]
        simp only [ok_bind]
        rw [show sfsBlockInuse _ ino = .ok true from inuse]
        rfl
      · refine fs_step_trans _ s u s' ?_ (fs_step_trans _ u _ s' (quiet_step _ u _ ⟨results', rfl, still'⟩)
          (store_step _ _ i.din.indirect _ ?_))
        · have step := taken_step (fun b => s.freemap.bit b = false ∧ (b ≠ i.din.indirect ∨ b = 0)) _ u ino _ taken
            (fun kept => by
              have free := taken.free
              simp only at free
              rw [kept.1] at free
              cases free) fun b apart => by simp [apart]
          exact ⟨step.super, step.dBlocks, step.nbits, step.nwords, step.data, step.used, step.clean,
            fun none => step.results (still none)⟩
        · rintro ⟨_, apart | atZero⟩
          · exact apart rfl
          · exact placed atZero
      · intro k bound apart
        by_cases directK : k < 12
        · rw [slot_direct s' i'.din k directK, slot_direct s i.din k directK]
        · rw [slot_indirect s' i'.din k (by omega) placed, slot_indirect s i.din k (by omega) placed]
          exact (congrArg (fun bytes => getLe bytes _ 4) content).trans (entry_other _ _ (k - 12) ino (by simp only [nDirect]; omega))
      · rw [here]
        exact taken.free
      · rw [here]
        exact taken.named
      · rw [here]
        exact taken.bound
      · intro b
        rw [here]
        refine (taken.bits b).trans ?_
        by_cases atEnt : b = i.din.indirect
        · simp [atEnt, usedEnt]
        · have apart : b ≠ i'.din.indirect := atEnt
          simp [apart]
      · have available := taken.available
        have spent : s'.super.unusedBlocks = s.super.unusedBlocks - 1 := congrArg SfsSuper.unusedBlocks taken.super
        rw [one, spent]
        simp only at available
        omega
    · refine Or.inr ⟨ret', s', failed, ?_, refused_after s _ s' ⟨results, rfl, still⟩ refused, fun none => ?_⟩
      · simp [sfsBmapLoadNolock, sfsBmapGetNolock, direct, small, sfsBmapGetSubNolock, placed, read, entry, result, failed]
      · rw [one]
        have both := blame (still none)
        exact ⟨both.1, by have spent := both.2; simp only at spent; omega⟩
  · simp only [zero, if_false] at read
    refine Or.inr ⟨ret, t, zero, ?_, refused_quiet s t quiet mounted, fun none => absurd (success none) zero⟩
    simp [sfsBmapLoadNolock, sfsBmapGetNolock, direct, small, sfsBmapGetSubNolock, placed, read, zero]

theorem append_fresh (s : SfsFs) (i : SfsInode) (mounted : Mounted s) (twelve : i.din.blocks = 12) (absent : i.din.indirect = 0) :
    (∃ s' i', sfsBmapLoadNolock s i i.din.blocks = .ok (0, slot s' i'.din i.din.blocks, s', i') ∧ Appended s s' i i') ∨
    ∃ ret s', ret ≠ 0 ∧ sfsBmapLoadNolock s i i.din.blocks = .ok (ret, 0, s', i) ∧ Refused s s' ∧
      (s.dev.results = [] → ret = eNoMem ∧ s.super.unusedBlocks < growCost i.din) := by
  have two : growCost i.din = 2 := by simp [growCost, twelve, absent]
  have clear : ∀ b ino, b ≠ ino → Function.update s.dev.data ino zeroBytes b = s.dev.data b := fun b ino other => by simp [other]
  rcases block_alloc_spec s mounted with ⟨full, none⟩ | ⟨ret, ent, t, result, success, placed⟩
  · refine Or.inr ⟨eNoMem, s, by decide, ?_, refused_quiet s s (quiet_refl s) mounted, fun _ => ⟨rfl, by omega⟩⟩
    simp [sfsBmapLoadNolock, sfsBmapGetNolock, twelve, nDirect, blkNentry, blkSize, sfsBmapGetSubNolock, absent, full, eNoMem]
  · by_cases zero : ret = 0
    · simp only [zero, if_true] at placed
      have mountedT := taken_mounted s t ent _ placed mounted
      have usedEnt : t.freemap.bit ent = false := by simp [placed.bits ent]
      rcases get_sub_create_fresh s t ent 0 placed mounted (by omega) with
        ⟨ino, u, v, created, taken, quiet⟩ | ⟨ret', s', failed, created, refused, blame⟩
      · have other : ent ≠ ino := by
          rintro rfl
          have free := taken.free
          simp [usedEnt] at free
        have free : s.freemap.bit ino = true := by
          have left := taken.free
          rw [placed.bits ino] at left
          simp only [Bool.and_eq_true] at left
          exact left.1
        have boundIno : ino < s.super.blocks := by
          have bound := taken.bound
          rw [placed.super] at bound
          exact bound
        have mountedU := taken_mounted t u ino _ taken mountedT
        have mountedV := quiet_mounted u v quiet mountedU
        let s' := v.store ent (memcpy zeroBytes (0 * 4) (toLe ino) 4)
        let i' : SfsInode := { i with din := { i.din with blocks := i.din.blocks + 1, indirect := ent }, dirty := true }
        have mounted' : Mounted s' := store_mounted v ent _ mountedV
        have content : s'.dev.data ent = memcpy zeroBytes (0 * 4) (toLe ino) 4 := by simp [s', SfsFs.store]
        have here : slot s' i'.din i.din.blocks = ino := by
          rw [slot_indirect s' i'.din i.din.blocks (by omega) placed.named, twelve]
          have limit := mounted.small
          exact (congrArg (fun bytes => getLe bytes _ 4) content).trans (entry_same _ 0 ino (by omega))
        have bitsV : ∀ b, v.freemap.bit b = (s.freemap.bit b && b != ent && b != ino) := by
          obtain ⟨_, rfl, _⟩ := quiet
          exact fun b => by rw [taken.bits b, placed.bits b]
        have superV : v.super = { s.super with unusedBlocks := s.super.unusedBlocks - 1 - 1 } := by
          obtain ⟨_, rfl, _⟩ := quiet
          rw [taken.super, placed.super]
        have boundV : ino < v.super.blocks := by
          rw [superV]
          exact boundIno
        have usedV : v.freemap.bit ino = false := by simp [bitsV ino]
        refine Or.inl ⟨s', i', ?_, ⟨rfl, mounted', ?_, ?_, ?_, ?_, ?_, Or.inr ⟨absent, twelve, placed.free, placed.bound, ?_⟩, ?_, ?_,
          Or.inl rfl⟩⟩
        · rw [here]
          have inuse : sfsBlockInuse s' ino = .ok true := by
            rw [block_inuse_spec s' ino mounted' taken.named boundV]
            exact congrArg _ (congrArg not usedV)
          have out : bmapCheckOut s' ino = .ok () := check_out_spec s' ino mounted' boundV usedV
          simp only [zero] at result
          simp only [sfsBmapLoadNolock, sfsBmapGetNolock, twelve, nDirect, blkNentry, blkSize, sfsBmapGetSubNolock, absent, result,
            created, placed.named, Nat.lt_irrefl, Nat.sub_self, le_refl, decide_true, check_true, ok_bind, pure_ok, dite_false, if_true,
            ne_eq, not_true_eq_false, not_false_eq_true, if_false, Bool.not_true, Bool.false_eq_true, Nat.reduceDiv, Nat.reduceLT]
          rw [show bmapCheckOut _ ino = .ok () from out]
          simp only [ok_bind]
          rw [show sfsBlockInuse _ ino = .ok true from inuse]
          simp only [ok_bind, check_true, i', s', twelve, not_true_eq_false, if_false]
        · have away : ¬ (s.freemap.bit ent = false ∧ (ent ≠ i.din.indirect ∨ ent = 0)) := by simp [placed.free]
          have awayIno : ¬ (s.freemap.bit ino = false ∧ (ino ≠ i.din.indirect ∨ ino = 0)) := by simp [free]
          exact fs_step_trans _ s t s' (taken_step _ s t ent _ placed away fun b => clear b ent)
            (fs_step_trans _ t u s' (taken_step _ t u ino _ taken awayIno fun b apart => by simp [apart])
              (fs_step_trans _ u v s' (quiet_step _ u v quiet) (store_step _ v ent _ away)))
        · intro k bound apart
          by_cases direct : k < 12
          · rw [slot_direct s' i'.din k direct, slot_direct s i.din k direct]
          · rw [slot_indirect s' i'.din k (by omega) placed.named, slot_absent s i.din k (by omega) absent]
            refine (congrArg (fun bytes => getLe bytes _ 4) content).trans ?_
            rw [entry_other _ 0 (k - 12) ino (by omega), get_le_zero]
        · rw [here]
          exact free
        · rw [here]
          exact taken.named
        · rw [here]
          exact boundIno
        · rw [here]
          exact other
        · intro b
          rw [here]
          refine (bitsV b).trans ?_
          cases s.freemap.bit b <;> cases (b != ent) <;> cases (b != ino) <;> rfl
        · have availableT := taken.available
          have available := placed.available
          rw [placed.super] at availableT
          have spent : s'.super.unusedBlocks = s.super.unusedBlocks - 1 - 1 := congrArg SfsSuper.unusedBlocks superV
          rw [two, spent]
          simp only at availableT
          omega
      · refine Or.inr ⟨ret', s', failed, ?_, refused, fun none => ?_⟩
        · simp only [zero] at result
          simp [sfsBmapLoadNolock, sfsBmapGetNolock, twelve, nDirect, blkNentry, blkSize, sfsBmapGetSubNolock, absent, result, created,
            failed]
        · have both := blame none
          have spent := both.2
          rw [placed.super] at spent
          simp only at spent
          exact ⟨both.1, by omega⟩
    · simp only [zero, if_false] at placed
      refine Or.inr ⟨ret, t, zero, ?_, ⟨taken_mounted s t ent _ placed mounted, ?_, ?_⟩, ?_⟩
      · simp [sfsBmapLoadNolock, sfsBmapGetNolock, twelve, nDirect, blkNentry, blkSize, sfsBmapGetSubNolock, absent, result, zero]
      · exact taken_step _ s t ent _ placed (by simp [placed.free]) fun _ _ => rfl
      · exact fun none => absurd (success none) zero
      · exact fun none => absurd (success none) zero

theorem bmap_append_spec (s : SfsFs) (i : SfsInode) (others : Nat → Prop) (mounted : Mounted s) (map : FileMap s i.din others)
    (room : i.din.blocks < 1036) :
    (∃ s' i', sfsBmapLoadNolock s i i.din.blocks = .ok (0, slot s' i'.din i.din.blocks, s', i') ∧ Appended s s' i i') ∨
    ∃ ret s', ret ≠ 0 ∧ sfsBmapLoadNolock s i i.din.blocks = .ok (ret, 0, s', i) ∧ Refused s s' ∧
      (s.dev.results = [] → ret = eNoMem ∧ s.super.unusedBlocks < growCost i.din) := by
  by_cases direct : i.din.blocks < 12
  · exact append_direct s i others mounted map direct
  · by_cases absent : i.din.indirect = 0
    · have twelve := indirect_needed s i.din others map absent
      exact append_fresh s i mounted (by omega) absent
    · exact append_placed s i others mounted map (by omega) room absent

theorem bmap_load_full (s : SfsFs) (i : SfsInode) (full : i.din.blocks = 1036) :
    sfsBmapLoadNolock s i 1036 = .error .indexOutOfRange := by
  simp [sfsBmapLoadNolock, sfsBmapGetNolock, full, nDirect, blkNentry, blkSize]

theorem bmap_load_past (s : SfsFs) (i : SfsInode) (index : Nat) (past : i.din.blocks < index) :
    sfsBmapLoadNolock s i index = .error .indexPastBlocks := by
  have beyond : ¬ index ≤ i.din.blocks := by omega
  simp [sfsBmapLoadNolock, beyond]

-- The blocks of an inode are blocks of the volume in use.
def InUse (s : SfsFs) (din : SfsDiskInode) : Prop := ∀ b, Refers s din b → b ≠ 0 ∧ b < s.super.blocks ∧ s.freemap.bit b = false

theorem map_in_use (s : SfsFs) (din : SfsDiskInode) (others : Nat → Prop) (map : FileMap s din others) : InUse s din := by
  intro b refers
  obtain ⟨named, bound, used, _⟩ := map.owned b refers
  exact ⟨named, bound, used⟩

theorem bmap_load_mapped (s : SfsFs) (i : SfsInode) (index : Nat) (mounted : Mounted s) (bounded : i.din.blocks ≤ 1036)
    (inUse : InUse s i.din) (below : index < i.din.blocks) :
    ∃ ret ino t, Quiet s t ∧ (s.dev.results = [] → ret = 0) ∧ (ret = 0 → ino = slot s i.din index) ∧
      sfsBmapLoadNolock s i index = .ok (ret, ino, t, i) := by
  obtain ⟨named, bound, used⟩ := inUse (slot s i.din index) (Or.inr ⟨index, below, rfl⟩)
  have le : index ≤ i.din.blocks := by omega
  have ne : index ≠ i.din.blocks := by omega
  by_cases direct : index < 12
  · refine ⟨0, slot s i.din index, s, quiet_refl s, fun _ => rfl, fun _ => rfl, ?_⟩
    have inuse := block_inuse_spec s _ mounted named bound
    have out := check_out_spec s _ mounted bound used
    rw [slot_direct s i.din index direct] at *
    simp [sfsBmapLoadNolock, sfsBmapGetNolock, le, ne, direct, out, inuse, used]
  · have placed : i.din.indirect ≠ 0 := by
      intro absent
      exact named (slot_absent s i.din index (by omega) absent)
    obtain ⟨_, boundEnt, usedEnt⟩ := inUse i.din.indirect (Or.inl ⟨rfl, placed⟩)
    have small : index - nDirect < blkNentry := by
      simp only [nDirect, blkNentry, blkSize]
      omega
    obtain ⟨ret, t, quiet, success, read⟩ := rbuf_spec s zeroBytes 4 i.din.indirect ((index - nDirect) * 4) mounted placed
      boundEnt (by simp only [nDirect]; omega) (by simp only [nDirect]; omega)
    by_cases zero : ret = 0
    · simp only [zero, if_true] at read
      have entry : getLe (memcpy zeroBytes 0 ((s.dev.data i.din.indirect).from ((index - nDirect) * 4)) 4) 0 4 =
          slot s i.din index := by
        rw [get_le_memcpy_same, slot_indirect s i.din index (by omega) placed]
        exact get_le_congr _ _ 0 ((index - 12) * 4) 4 fun k _ => by simp [Bytes.from, nDirect]
      have mountedT := quiet_mounted s t quiet mounted
      have inuse : sfsBlockInuse t (slot s i.din index) = .ok true := by
        obtain ⟨_, rfl, _⟩ := quiet
        rw [block_inuse_spec _ _ mountedT named bound]
        exact congrArg _ (congrArg not used)
      have out : bmapCheckOut t (slot s i.din index) = .ok () := by
        obtain ⟨_, rfl, _⟩ := quiet
        exact check_out_spec _ _ mountedT bound used
      refine ⟨0, slot s i.din index, t, quiet, fun _ => rfl, fun _ => rfl, ?_⟩
      simp [sfsBmapLoadNolock, sfsBmapGetNolock, le, ne, direct, small, sfsBmapGetSubNolock, placed, read, entry, out, inuse]
    · simp only [zero, if_false] at read
      refine ⟨ret, 0, t, quiet, success, fun same => absurd same zero, ?_⟩
      simp [sfsBmapLoadNolock, sfsBmapGetNolock, le, ne, direct, small, sfsBmapGetSubNolock, placed, read, zero]

end Ucore.Sfs
