import Ucore.Sfs.BlockMapGrow

set_option autoImplicit false

namespace Ucore.Sfs

open Ucore.Lib

-- Every block below super.blocks is in use for a reason.
def Exact (s : SfsFs) (din : SfsDiskInode) (others : Nat → Prop) : Prop :=
  ∀ b, b < s.super.blocks → (s.freemap.bit b = false ↔ others b ∨ Refers s din b)

-- The last block of the file was given back.
structure Cut (s s' : SfsFs) (i i' : SfsInode) : Prop where
  inode : i' = { i with din := { i.din with blocks := i.din.blocks - 1, direct := i'.din.direct }, dirty := true }
  mounted : Mounted s'
  step : FsStep (fun b => s.freemap.bit b = false ∧ b ≠ slot s i.din (i.din.blocks - 1) ∧ (b ≠ i.din.indirect ∨ b = 0)) s s'
  slots : ∀ k, k < 1036 → k ≠ i.din.blocks - 1 → slot s' i'.din k = slot s i.din k
  gone : slot s' i'.din (i.din.blocks - 1) = 0
  bits : ∀ b, s'.freemap.bit b = (s.freemap.bit b || b == slot s i.din (i.din.blocks - 1))
  cost : s'.super.unusedBlocks = s.super.unusedBlocks + 1

theorem fs_step_blocks (keep : Nat → Prop) (s s' : SfsFs) (step : FsStep keep s s') : s'.super.blocks = s.super.blocks := by
  rw [step.super]

theorem slot_frame (s s' : SfsFs) (din : SfsDiskInode)
    (same : din.indirect ≠ 0 → s'.dev.data din.indirect = s.dev.data din.indirect) (k : Nat) : slot s' din k = slot s din k := by
  by_cases direct : k < 12
  · rw [slot_direct s' din k direct, slot_direct s din k direct]
  · by_cases absent : din.indirect = 0
    · rw [slot_absent s' din k (by omega) absent, slot_absent s din k (by omega) absent]
    · rw [slot_indirect s' din k (by omega) absent, slot_indirect s din k (by omega) absent, same absent]

theorem refers_congr (s s' : SfsFs) (din : SfsDiskInode) (same : ∀ k, slot s' din k = slot s din k) (b : Nat) :
    Refers s' din b ↔ Refers s din b := by
  simp only [Refers, same]

-- A file is as it was when its own blocks and those of others are kept.
theorem map_frame (s s' : SfsFs) (din : SfsDiskInode) (others : Nat → Prop) (map : FileMap s din others)
    (step : FsStep (fun b => others b ∨ Refers s din b) s s') :
    FileMap s' din others ∧ ∀ k, slot s' din k = slot s din k := by
  have same : ∀ k, slot s' din k = slot s din k :=
    slot_frame s s' din fun placed => step.data _ (Or.inr (Or.inl ⟨rfl, placed⟩))
  have blocks := fs_step_blocks _ s s' step
  refine ⟨⟨map.type, map.bounded, ?_, ?_, ?_, ?_, ?_, ?_⟩, same⟩
  · intro k below
    rw [same]
    exact map.mapped k below
  · intro k above bound
    rw [same]
    exact map.unmapped k above bound
  · intro k l belowK belowL
    rw [same, same]
    exact map.distinct k l belowK belowL
  · intro k below
    rw [same]
    exact map.apart k below
  · intro b refers
    have before := (refers_congr s s' din same b).mp refers
    obtain ⟨named, bound, used, foreign⟩ := map.owned b before
    rw [blocks]
    exact ⟨named, bound, step.used b (Or.inr before) used, foreign⟩
  · intro b foreign
    obtain ⟨bound, used⟩ := map.others b foreign
    rw [blocks]
    exact ⟨bound, step.used b (Or.inl foreign) used⟩

theorem refused_map (s s' : SfsFs) (din : SfsDiskInode) (others : Nat → Prop) (map : FileMap s din others)
    (refused : Refused s s') : FileMap s' din others ∧ ∀ k, slot s' din k = slot s din k := by
  apply map_frame s s' din others map
  refine fs_step_weaken _ _ s s' refused.step fun b kept => ?_
  rcases kept with foreign | own
  · exact (map.others b foreign).2
  · exact (map.owned b own).2.2.1

theorem exact_congr (s s' : SfsFs) (din : SfsDiskInode) (others : Nat → Prop) (exact : Exact s din others)
    (blocks : s'.super.blocks = s.super.blocks) (bits : ∀ b, s'.freemap.bit b = s.freemap.bit b)
    (same : ∀ k, slot s' din k = slot s din k) : Exact s' din others := by
  intro b bound
  rw [bits b, refers_congr s s' din same]
  exact exact b (blocks ▸ bound)

section Append

variable (s s' : SfsFs) (i i' : SfsInode) (others : Nat → Prop)

theorem appended_blocks (appended : Appended s s' i i') : i'.din.blocks = i.din.blocks + 1 := by
  rw [appended.inode]

theorem appended_refers (appended : Appended s s' i i') (room : i.din.blocks < 1036) (b : Nat) :
    Refers s' i'.din b ↔ Refers s i.din b ∨ b = slot s' i'.din i.din.blocks ∨ (b = i'.din.indirect ∧ b ≠ 0) := by
  have blocks := appended_blocks s s' i i' appended
  constructor
  · rintro (⟨atIndirect, named⟩ | ⟨k, below, here⟩)
    · exact Or.inr (Or.inr ⟨atIndirect, named⟩)
    · by_cases last : k = i.din.blocks
      · exact Or.inr (Or.inl (by rw [← here, last]))
      · rw [appended.slots k (by omega) last] at here
        exact Or.inl (Or.inr ⟨k, by omega, here⟩)
  · rintro ((⟨atIndirect, named⟩ | ⟨k, below, here⟩) | new | ⟨atIndirect, named⟩)
    · rcases appended.indirect with same | ⟨absent, _⟩
      · exact Or.inl ⟨by rw [same]; exact atIndirect, named⟩
      · exact absurd (atIndirect.trans absent) named
    · refine Or.inr ⟨k, by omega, ?_⟩
      rw [appended.slots k (by omega) (by omega)]
      exact here
    · exact Or.inr ⟨i.din.blocks, by omega, new.symm⟩
    · exact Or.inl ⟨atIndirect, named⟩

theorem appended_keeps (appended : Appended s s' i i') (map : FileMap s i.din others) : FsStep others s s' := by
  refine fs_step_weaken _ _ s s' appended.step fun b foreign => ⟨(map.others b foreign).2, ?_⟩
  by_cases zero : b = 0
  · exact Or.inr zero
  · exact Or.inl fun atIndirect => (map.owned b (Or.inl ⟨atIndirect, zero⟩)).2.2.2 foreign

theorem appended_data (appended : Appended s s' i i') (map : FileMap s i.din others) (k : Nat) (below : k < i.din.blocks) :
    s'.dev.data (slot s i.din k) = s.dev.data (slot s i.din k) :=
  appended.step.data _ ⟨(map.owned _ (Or.inr ⟨k, below, rfl⟩)).2.2.1, Or.inl (map.apart k below)⟩

theorem appended_map (appended : Appended s s' i i') (map : FileMap s i.din others) (room : i.din.blocks < 1036) :
    FileMap s' i'.din others := by
  have blocks := appended_blocks s s' i i' appended
  have total := fs_step_blocks _ s s' appended.step
  have fresh : ∀ b, s.freemap.bit b = true → (∀ k, k < i.din.blocks → slot s i.din k ≠ b) ∧ ¬ others b := by
    intro b free
    refine ⟨fun k below here => ?_, fun foreign => ?_⟩
    · have used := (map.owned b (Or.inr ⟨k, below, here⟩)).2.2.1
      rw [free] at used
      cases used
    · have used := (map.others b foreign).2
      rw [free] at used
      cases used
  have oldSlot : ∀ k, k < i'.din.blocks → k ≠ i.din.blocks → slot s' i'.din k = slot s i.din k ∧ k < i.din.blocks := by
    intro k below apart
    exact ⟨appended.slots k (by omega) apart, by omega⟩
  refine ⟨by rw [appended.inode]; exact map.type, by omega, ?_, ?_, ?_, ?_, ?_, ?_⟩
  · intro k below
    by_cases last : k = i.din.blocks
    · rw [last]
      exact appended.freshNamed
    · rw [(oldSlot k below last).1]
      exact map.mapped k (oldSlot k below last).2
  · intro k above bound
    rw [appended.slots k bound (by omega)]
    exact map.unmapped k (by omega) bound
  · intro k l belowK belowL same
    by_cases lastK : k = i.din.blocks
    · by_cases lastL : l = i.din.blocks
      · rw [lastK, lastL]
      · obtain ⟨old, below⟩ := oldSlot l belowL lastL
        rw [lastK, old] at same
        exact absurd same.symm ((fresh _ appended.fresh).1 l below)
    · obtain ⟨old, below⟩ := oldSlot k belowK lastK
      by_cases lastL : l = i.din.blocks
      · rw [lastL, old] at same
        exact absurd same ((fresh _ appended.fresh).1 k below)
      · obtain ⟨oldL, belowL'⟩ := oldSlot l belowL lastL
        rw [old, oldL] at same
        exact map.distinct k l below belowL' same
  · intro k below
    rcases appended.indirect with same | ⟨absent, _, free, _, apart⟩
    · rw [same]
      by_cases last : k = i.din.blocks
      · rw [last]
        intro atIndirect
        have free := appended.fresh
        rw [atIndirect] at free
        by_cases absent : i.din.indirect = 0
        · exact appended.freshNamed (atIndirect.trans absent)
        · have used := (map.owned i.din.indirect (Or.inl ⟨rfl, absent⟩)).2.2.1
          rw [free] at used
          cases used
      · rw [(oldSlot k below last).1]
        exact map.apart k (oldSlot k below last).2
    · by_cases last : k = i.din.blocks
      · rw [last]
        exact apart.symm
      · rw [(oldSlot k below last).1]
        exact (fresh _ free).1 k (oldSlot k below last).2
  · intro b refers
    rw [total, appended.bits b]
    rcases (appended_refers s s' i i' appended room b).mp refers with old | new | ⟨atIndirect, named⟩
    · obtain ⟨named, bound, used, foreign⟩ := map.owned b old
      exact ⟨named, bound, by simp [used], foreign⟩
    · rw [new]
      exact ⟨appended.freshNamed, appended.freshBound, by simp, (fresh _ appended.fresh).2⟩
    · rcases appended.indirect with same | ⟨_, _, free, bound, _⟩
      · obtain ⟨_, bound, used, foreign⟩ := map.owned b (Or.inl ⟨by rw [← same]; exact atIndirect, named⟩)
        exact ⟨named, bound, by simp [used], foreign⟩
      · rw [atIndirect] at named ⊢
        exact ⟨named, bound, by simp, (fresh _ free).2⟩
  · intro b foreign
    obtain ⟨bound, used⟩ := map.others b foreign
    rw [total, appended.bits b]
    exact ⟨bound, by simp [used]⟩

theorem appended_exact (appended : Appended s s' i i') (room : i.din.blocks < 1036)
    (superOthers : others 0) (exact : Exact s i.din others) : Exact s' i'.din others := by
  intro b bound
  rw [fs_step_blocks _ s s' appended.step] at bound
  rw [appended_refers s s' i i' appended room b, appended.bits b]
  have before := exact b bound
  by_cases new : b = slot s' i'.din i.din.blocks
  · simp [new]
  · by_cases atIndirect : b = i'.din.indirect
    · by_cases zero : b = 0
      · simp [← atIndirect, zero, superOthers]
      · simp [← atIndirect, zero]
    · have apart : (b != slot s' i'.din i.din.blocks) = true := by simpa using new
      have other : (b != i'.din.indirect) = true := by simpa using atIndirect
      simp only [apart, other, Bool.and_true, before, new, atIndirect, false_and, or_false]

end Append

section Truncate

variable (s s' : SfsFs) (i i' : SfsInode) (others : Nat → Prop)

theorem cut_direct (mounted : Mounted s) (map : FileMap s i.din others) (some : i.din.blocks ≠ 0) (bound : i.din.blocks - 1 < 12) :
    ∃ s' i', sfsBmapTruncateNolock s i = .ok (0, s', i') ∧ Cut s s' i i' := by
  obtain ⟨named, inside, used, _⟩ := map.owned (slot s i.din (i.din.blocks - 1)) (Or.inr ⟨i.din.blocks - 1, by omega, rfl⟩)
  obtain ⟨t, freed, released⟩ := block_free_spec s _ mounted named inside used
  have mountedT := released_mounted s t _ released mounted named inside used
  have here := slot_direct s i.din (i.din.blocks - 1) bound
  rw [here] at named freed
  let i' : SfsInode := { i with
    din := { i.din with blocks := i.din.blocks - 1, direct := Function.update i.din.direct ⟨i.din.blocks - 1, bound⟩ 0 }
    dirty := true }
  refine ⟨t, i', ?_, rfl, mountedT, ?_, ?_, ?_, released.bits, ?_⟩
  · simp [sfsBmapTruncateNolock, sfsBmapFreeNolock, some, bound, named, freed, i']
  · exact released_step _ s t _ released fun kept => kept.2.1 rfl
  · intro k small apart
    by_cases direct : k < 12
    · rw [slot_direct t i'.din k direct, slot_direct s i.din k direct]
      simp [i', apart]
    · by_cases absent : i.din.indirect = 0
      · rw [slot_absent t i'.din k (by omega) absent, slot_absent s i.din k (by omega) absent]
      · rw [slot_indirect t i'.din k (by omega) absent, slot_indirect s i.din k (by omega) absent, released.dev]
  · rw [slot_direct t i'.din (i.din.blocks - 1) bound]
    simp [i']
  · rw [released.super]

theorem cut_indirect (mounted : Mounted s) (map : FileMap s i.din others) (exceeds : 12 ≤ i.din.blocks - 1) :
    (∃ s' i', sfsBmapTruncateNolock s i = .ok (0, s', i') ∧ Cut s s' i i') ∨
      ∃ ret s', ret ≠ 0 ∧ sfsBmapTruncateNolock s i = .ok (ret, s', i) ∧ Quiet s s' ∧ s.dev.results ≠ [] := by
  have bounded := map.bounded
  obtain ⟨named, inside, used, _⟩ := map.owned (slot s i.din (i.din.blocks - 1)) (Or.inr ⟨i.din.blocks - 1, by omega, rfl⟩)
  have placed : i.din.indirect ≠ 0 := fun absent => named (slot_absent s i.din _ exceeds absent)
  obtain ⟨_, boundEnt, usedEnt, _⟩ := map.owned i.din.indirect (Or.inl ⟨rfl, placed⟩)
  have some : i.din.blocks ≠ 0 := by omega
  have direct : ¬ i.din.blocks - 1 < 12 := by omega
  have small : i.din.blocks - 1 - nDirect < blkNentry := by
    simp only [nDirect, blkNentry, blkSize]
    omega
  have inuse := block_inuse_spec s i.din.indirect mounted placed boundEnt
  obtain ⟨ret, t, quiet, success, read⟩ := rbuf_spec s zeroBytes 4 i.din.indirect ((i.din.blocks - 1 - nDirect) * 4) mounted placed
    boundEnt (by simp only [nDirect]; omega) (by simp only [nDirect]; omega)
  by_cases zero : ret = 0
  · simp only [zero, if_true] at read
    have entry : getLe (memcpy zeroBytes 0 ((s.dev.data i.din.indirect).from ((i.din.blocks - 1 - nDirect) * 4)) 4) 0 4 =
        slot s i.din (i.din.blocks - 1) := by
      rw [get_le_memcpy_same, slot_indirect s i.din (i.din.blocks - 1) exceeds placed]
      exact get_le_congr _ _ 0 ((i.din.blocks - 1 - 12) * 4) 4 fun k _ => by simp [Bytes.from, nDirect]
    have mountedT := quiet_mounted s t quiet mounted
    have sameT : t.super = s.super ∧ t.freemap = s.freemap ∧ t.dev.data = s.dev.data := by
      obtain ⟨_, rfl, _⟩ := quiet
      exact ⟨rfl, rfl, rfl⟩
    obtain ⟨ret', u, quietU, success', wrote⟩ := wbuf_spec t (toLe 0) 4 i.din.indirect ((i.din.blocks - 1 - nDirect) * 4) mountedT
      placed (by rw [sameT.1]; exact boundEnt) (by simp only [nDirect]; omega) (by simp only [nDirect]; omega)
    have quietSU := quiet_trans s t u quiet quietU
    by_cases zero' : ret' = 0
    · simp only [zero', if_true, sameT.2.2] at wrote
      have mountedU := quiet_mounted s u quietSU mounted
      have sameU : u.super = s.super ∧ u.freemap = s.freemap ∧ u.dev.data = s.dev.data := by
        obtain ⟨_, rfl, _⟩ := quietSU
        exact ⟨rfl, rfl, rfl⟩
      let v := u.store i.din.indirect (memcpy (s.dev.data i.din.indirect) ((i.din.blocks - 1 - nDirect) * 4) (toLe 0) 4)
      have mountedV : Mounted v := store_mounted u _ _ mountedU
      have insideV : slot s i.din (i.din.blocks - 1) < v.super.blocks := by
        rw [show v.super = s.super from sameU.1]
        exact inside
      have usedV : v.freemap.bit (slot s i.din (i.din.blocks - 1)) = false := by
        rw [show v.freemap = s.freemap from sameU.2.1]
        exact used
      obtain ⟨w, freed, released⟩ := block_free_spec v _ mountedV named insideV usedV
      let i' : SfsInode := { i with din := { i.din with blocks := i.din.blocks - 1 }, dirty := true }
      have content : w.dev.data i.din.indirect =
          memcpy (s.dev.data i.din.indirect) ((i.din.blocks - 1 - nDirect) * 4) (toLe 0) 4 := by
        rw [released.dev]
        simp [v, SfsFs.store]
      refine Or.inl ⟨w, i', ?_, rfl, released_mounted v w _ released mountedV named insideV usedV, ?_, ?_, ?_, ?_, ?_⟩
      · simp only [v] at freed
        simp [sfsBmapTruncateNolock, sfsBmapFreeNolock, sfsBmapFreeSubNolock, some, direct, small, placed, inuse, usedEnt, read, entry,
          named, wrote, freed, i']
      · refine fs_step_trans _ s u w (quiet_step _ s u quietSU) (fs_step_trans _ u v w (store_step _ u _ _ ?_)
          (released_step _ v w _ released fun kept => kept.2.1 rfl))
        rintro ⟨_, _, apart | atZero⟩
        · exact apart rfl
        · exact placed atZero
      · intro k bound apart
        by_cases directK : k < 12
        · rw [slot_direct w i'.din k directK, slot_direct s i.din k directK]
        · rw [slot_indirect w i'.din k (by omega) placed, slot_indirect s i.din k (by omega) placed]
          exact (congrArg (fun bytes => getLe bytes _ 4) content).trans (entry_other _ _ (k - 12) 0 (by simp only [nDirect]; omega))
      · rw [slot_indirect w i'.din _ exceeds placed]
        exact (congrArg (fun bytes => getLe bytes _ 4) content).trans (entry_same _ _ 0 (by omega))
      · intro b
        rw [released.bits b, show v.freemap = s.freemap from sameU.2.1]
      · rw [released.super, show v.super = s.super from sameU.1]
    · simp only [zero', if_false] at wrote
      refine Or.inr ⟨ret', u, zero', ?_, quietSU, fun none => zero' (success' ?_)⟩
      · simp [sfsBmapTruncateNolock, sfsBmapFreeNolock, sfsBmapFreeSubNolock, some, direct, small, placed, inuse, usedEnt, read, entry,
          named, wrote, zero']
      · obtain ⟨_, rfl, still⟩ := quiet
        exact still none
  · simp only [zero, if_false] at read
    refine Or.inr ⟨ret, t, zero, ?_, quiet, fun none => zero (success none)⟩
    simp [sfsBmapTruncateNolock, sfsBmapFreeNolock, sfsBmapFreeSubNolock, some, direct, small, placed, inuse, usedEnt, read, zero]

theorem bmap_truncate_spec (mounted : Mounted s) (map : FileMap s i.din others) (some : i.din.blocks ≠ 0) :
    (∃ s' i', sfsBmapTruncateNolock s i = .ok (0, s', i') ∧ Cut s s' i i') ∨
      ∃ ret s', ret ≠ 0 ∧ sfsBmapTruncateNolock s i = .ok (ret, s', i) ∧ Quiet s s' ∧ s.dev.results ≠ [] := by
  by_cases direct : i.din.blocks - 1 < 12
  · exact Or.inl (cut_direct s i others mounted map some direct)
  · exact cut_indirect s i others mounted map (by omega)

theorem cut_blocks (cut : Cut s s' i i') : i'.din.blocks = i.din.blocks - 1 := by
  rw [cut.inode]

theorem cut_indirect_same (cut : Cut s s' i i') : i'.din.indirect = i.din.indirect := by
  rw [cut.inode]

theorem cut_refers (cut : Cut s s' i i') (map : FileMap s i.din others) (some : i.din.blocks ≠ 0) (b : Nat) :
    Refers s' i'.din b ↔ Refers s i.din b ∧ b ≠ slot s i.din (i.din.blocks - 1) := by
  have blocks := cut_blocks s s' i i' cut
  have indirect := cut_indirect_same s s' i i' cut
  have bounded := map.bounded
  constructor
  · rintro (⟨atIndirect, named⟩ | ⟨k, below, here⟩)
    · rw [indirect] at atIndirect
      exact ⟨Or.inl ⟨atIndirect, named⟩, fun last => map.apart (i.din.blocks - 1) (by omega) (last.symm.trans atIndirect)⟩
    · rw [cut.slots k (by omega) (by omega)] at here
      refine ⟨Or.inr ⟨k, by omega, here⟩, fun last => ?_⟩
      have same := map.distinct k (i.din.blocks - 1) (by omega) (by omega) (here.trans last)
      omega
  · rintro ⟨⟨atIndirect, named⟩ | ⟨k, below, here⟩, apart⟩
    · exact Or.inl ⟨by rw [indirect]; exact atIndirect, named⟩
    · have earlier : k ≠ i.din.blocks - 1 := by
        rintro rfl
        exact apart here.symm
      refine Or.inr ⟨k, by omega, ?_⟩
      rw [cut.slots k (by omega) earlier]
      exact here

theorem cut_keeps (cut : Cut s s' i i') (map : FileMap s i.din others) (some : i.din.blocks ≠ 0) : FsStep others s s' := by
  refine fs_step_weaken _ _ s s' cut.step fun b foreign => ⟨(map.others b foreign).2, fun last => ?_, ?_⟩
  · exact (map.owned b (Or.inr ⟨i.din.blocks - 1, by omega, last.symm⟩)).2.2.2 foreign
  · by_cases zero : b = 0
    · exact Or.inr zero
    · exact Or.inl fun atIndirect => (map.owned b (Or.inl ⟨atIndirect, zero⟩)).2.2.2 foreign

theorem cut_data (cut : Cut s s' i i') (map : FileMap s i.din others) (k : Nat) (below : k < i.din.blocks - 1) :
    s'.dev.data (slot s i.din k) = s.dev.data (slot s i.din k) := by
  refine cut.step.data _ ⟨(map.owned _ (Or.inr ⟨k, by omega, rfl⟩)).2.2.1, fun same => ?_, Or.inl (map.apart k (by omega))⟩
  have equal := map.distinct k (i.din.blocks - 1) (by omega) (by omega) same
  omega

theorem cut_map (cut : Cut s s' i i') (map : FileMap s i.din others) (some : i.din.blocks ≠ 0) : FileMap s' i'.din others := by
  have blocks := cut_blocks s s' i i' cut
  have bounded := map.bounded
  have total := fs_step_blocks _ s s' cut.step
  have old : ∀ k, k < i'.din.blocks → slot s' i'.din k = slot s i.din k := fun k below => cut.slots k (by omega) (by omega)
  refine ⟨by rw [cut.inode]; exact map.type, by omega, ?_, ?_, ?_, ?_, ?_, ?_⟩
  · intro k below
    rw [old k below]
    exact map.mapped k (by omega)
  · intro k above bound
    by_cases last : k = i.din.blocks - 1
    · rw [last]
      exact cut.gone
    · rw [cut.slots k bound last]
      exact map.unmapped k (by omega) bound
  · intro k l belowK belowL same
    rw [old k belowK, old l belowL] at same
    exact map.distinct k l (by omega) (by omega) same
  · intro k below
    rw [old k below, cut_indirect_same s s' i i' cut]
    exact map.apart k (by omega)
  · intro b refers
    obtain ⟨before, apart⟩ := (cut_refers s s' i i' others cut map some b).mp refers
    obtain ⟨named, bound, used, foreign⟩ := map.owned b before
    rw [total, cut.bits b]
    exact ⟨named, bound, by simp [used, apart], foreign⟩
  · intro b foreign
    obtain ⟨bound, used⟩ := map.others b foreign
    have apart : b ≠ slot s i.din (i.din.blocks - 1) := fun last =>
      (map.owned b (Or.inr ⟨i.din.blocks - 1, by omega, last.symm⟩)).2.2.2 foreign
    rw [total, cut.bits b]
    exact ⟨bound, by simp [used, apart]⟩

theorem cut_exact (cut : Cut s s' i i') (map : FileMap s i.din others) (some : i.din.blocks ≠ 0) (exact : Exact s i.din others) :
    Exact s' i'.din others := by
  intro b bound
  rw [fs_step_blocks _ s s' cut.step] at bound
  rw [cut_refers s s' i i' others cut map some b, cut.bits b]
  have before := exact b bound
  by_cases last : b = slot s i.din (i.din.blocks - 1)
  · have own := (map.owned b (Or.inr ⟨i.din.blocks - 1, by omega, last.symm⟩)).2.2.2
    simp [last] at own ⊢
    exact own
  · have other : (b == slot s i.din (i.din.blocks - 1)) = false := by simpa using last
    simp only [other, Bool.or_false, before, ne_eq, last, not_false_eq_true, and_true]

end Truncate

end Ucore.Sfs
