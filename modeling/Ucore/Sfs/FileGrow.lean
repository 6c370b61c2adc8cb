import Ucore.Sfs.BlockMapKeep

set_option autoImplicit false

namespace Ucore.Sfs

open Ucore.Lib

-- What every operation on a file keeps.
structure Effect (others : Nat → Prop) (s s' : SfsFs) (i i' : SfsInode) : Prop where
  mounted : Mounted s'
  map : FileMap s' i'.din others
  step : FsStep others s s'
  ino : i'.ino = i.ino
  nlinks : i'.din.nlinks = i.din.nlinks
  exact : s.dev.results = [] → Exact s i.din others → Exact s' i'.din others
  dirty : i.dirty = true → i'.dirty = true

-- The free blocks that n more blocks of a file take.
def needBlocks (din : SfsDiskInode) (n : Nat) : Nat :=
  n + if din.indirect = 0 ∧ din.blocks ≤ 12 ∧ 12 < din.blocks + n then 1 else 0

-- A file with n more blocks and the same size. The dirty flag is missed when
-- only entries of an indirect block that was there are written.
structure Grown (others : Nat → Prop) (s s' : SfsFs) (i i' : SfsInode) (n : Nat) : Prop where
  effect : Effect others s s' i i'
  blocks : i'.din.blocks = i.din.blocks + n
  size : i'.din.size = i.din.size
  slots : ∀ k, k < i.din.blocks → slot s' i'.din k = slot s i.din k
  indirect : i'.din.indirect = 0 ↔ i.din.indirect = 0 ∧ i.din.blocks + n ≤ 12
  cost : s.dev.results = [] → s'.super.unusedBlocks + needBlocks i.din n = s.super.unusedBlocks
  marked : i'.dirty = true ∨ i' = i ∨ (0 < n ∧ 12 ≤ i.din.blocks ∧ i.din.indirect ≠ 0)

def fileByte (s : SfsFs) (din : SfsDiskInode) (pos : Nat) : UInt8 := s.dev.data (slot s din (pos / 4096)) (pos % 4096)

theorem effect_trans (others : Nat → Prop) (s t u : SfsFs) (i j k : SfsInode) (first : Effect others s t i j)
    (second : Effect others t u j k) : Effect others s u i k :=
  ⟨second.mounted, second.map, fs_step_trans others s t u first.step second.step, second.ino.trans first.ino,
    second.nlinks.trans first.nlinks, fun none exact => second.exact (first.step.results none) (first.exact none exact),
    fun dirty => second.dirty (first.dirty dirty)⟩

theorem effect_refl (others : Nat → Prop) (s : SfsFs) (i : SfsInode) (mounted : Mounted s) (map : FileMap s i.din others) :
    Effect others s s i i :=
  ⟨mounted, map, fs_step_refl others s, rfl, rfl, fun _ exact => exact, id⟩

theorem need_append (din later : SfsDiskInode) (n m : Nat) (blocks : later.blocks = din.blocks + n)
    (indirect : later.indirect = 0 ↔ din.indirect = 0 ∧ din.blocks + n ≤ 12) :
    needBlocks din (n + m) = needBlocks din n + needBlocks later m := by
  simp only [needBlocks, blocks, indirect]
  split <;> split <;> split <;> omega

theorem need_one (s : SfsFs) (din : SfsDiskInode) (others : Nat → Prop) (map : FileMap s din others) :
    needBlocks din 1 = growCost din := by
  have few := indirect_needed s din others map
  simp only [needBlocks, growCost]
  split <;> split <;> omega

theorem need_mono (din : SfsDiskInode) (n m : Nat) (le : n ≤ m) : needBlocks din n ≤ needBlocks din m := by
  simp only [needBlocks]
  split <;> split <;> omega

theorem grown_trans (others : Nat → Prop) (s t u : SfsFs) (i j k : SfsInode) (n m : Nat) (first : Grown others s t i j n)
    (second : Grown others t u j k m) : Grown others s u i k (n + m) := by
  have blocks := first.blocks
  have more := second.blocks
  constructor
  · exact effect_trans others s t u i j k first.effect second.effect
  · omega
  · exact second.size.trans first.size
  · intro index below
    rw [second.slots index (by omega), first.slots index below]
  · rw [second.indirect, first.indirect, blocks]
    omega
  · intro none
    have spent := first.cost none
    have later := second.cost (first.effect.step.results none)
    rw [need_append i.din j.din n m blocks first.indirect]
    omega
  · rcases second.marked with dirty | same | ⟨positive, exceeds, placed⟩
    · exact Or.inl dirty
    · rw [same]
      rcases first.marked with dirty | before | ⟨positive, exceeds, placed⟩
      · exact Or.inl dirty
      · exact Or.inr (Or.inl before)
      · exact Or.inr (Or.inr ⟨by omega, exceeds, placed⟩)
    · rcases first.marked with dirty | before | ⟨positive', exceeds', placed'⟩
      · exact Or.inl (second.effect.dirty dirty)
      · subst before
        exact Or.inr (Or.inr ⟨by omega, exceeds, placed⟩)
      · exact Or.inr (Or.inr ⟨by omega, exceeds', placed'⟩)

theorem grown_still (others : Nat → Prop) (s s' : SfsFs) (i : SfsInode) (effect : Effect others s s' i i)
    (slots : ∀ k, k < i.din.blocks → slot s' i.din k = slot s i.din k)
    (cost : s.dev.results = [] → s'.super.unusedBlocks = s.super.unusedBlocks) : Grown others s s' i i 0 := by
  refine ⟨effect, rfl, rfl, slots, ?_, fun none => ?_, Or.inr (Or.inl rfl)⟩
  · constructor
    · intro absent
      exact ⟨absent, indirect_needed s' i.din others effect.map absent⟩
    · exact fun both => both.1
  · have exceeds : ¬ (i.din.indirect = 0 ∧ i.din.blocks ≤ 12 ∧ 12 < i.din.blocks + 0) := by omega
    rw [needBlocks, if_neg exceeds]
    exact cost none

theorem refused_effect (others : Nat → Prop) (s s' : SfsFs) (i : SfsInode) (map : FileMap s i.din others) (refused : Refused s s') :
    Effect others s s' i i := by
  obtain ⟨map', slots⟩ := refused_map s s' i.din others map refused
  refine ⟨refused.mounted, map', ?_, rfl, rfl, fun none exact => ?_, id⟩
  · exact fs_step_weaken _ _ s s' refused.step fun b foreign => (map.others b foreign).2
  · exact exact_congr s s' i.din others exact (fs_step_blocks _ s s' refused.step) (refused.restored none).2 slots

theorem refused_grown (others : Nat → Prop) (s s' : SfsFs) (i : SfsInode) (map : FileMap s i.din others) (refused : Refused s s') :
    Grown others s s' i i 0 :=
  grown_still others s s' i (refused_effect others s s' i map refused)
    (fun k _ => (refused_map s s' i.din others map refused).2 k) fun none => (refused.restored none).1

theorem refused_bytes (others : Nat → Prop) (s s' : SfsFs) (i : SfsInode) (map : FileMap s i.din others) (refused : Refused s s')
    (pos : Nat) (inside : pos / 4096 < i.din.blocks) : fileByte s' i.din pos = fileByte s i.din pos := by
  rw [fileByte, (refused_map s s' i.din others map refused).2, refused.step.data]
  · rfl
  · exact (map.owned _ (Or.inr ⟨pos / 4096, inside, rfl⟩)).2.2.1

theorem quiet_grown (others : Nat → Prop) (s s' : SfsFs) (i : SfsInode) (mounted : Mounted s) (map : FileMap s i.din others)
    (quiet : Quiet s s') : Grown others s s' i i 0 :=
  refused_grown others s s' i map (refused_quiet s s' quiet mounted)

theorem appended_grown (others : Nat → Prop) (s s' : SfsFs) (i i' : SfsInode) (superOthers : others 0)
    (map : FileMap s i.din others) (room : i.din.blocks < 1036) (appended : Appended s s' i i') : Grown others s s' i i' 1 := by
  have blocks := appended_blocks s s' i i' appended
  have map' := appended_map s s' i i' others appended map room
  constructor
  · refine ⟨appended.mounted, map', appended_keeps s s' i i' others appended map, by rw [appended.inode],
      by rw [appended.inode], fun _ => appended_exact s s' i i' others appended room superOthers, fun dirty => ?_⟩
    rcases appended.dirty with set | ⟨_, _, same⟩
    · exact set
    · rw [same, dirty]
  · exact blocks
  · rw [appended.inode]
  · exact fun k below => appended.slots k (by omega) (by omega)
  · rcases appended.indirect with same | ⟨absent, twelve, free, _, _⟩
    · rw [same]
      constructor
      · intro absent
        have few := indirect_needed s' i'.din others map' (same.trans absent)
        exact ⟨absent, by omega⟩
      · exact fun both => both.1
    · have placed : i'.din.indirect ≠ 0 := by
        intro none
        have needed := indirect_needed s' i'.din others map' none
        omega
      simp [placed, twelve]
  · intro _
    rw [need_one s i.din others map]
    exact appended.cost
  · rcases appended.dirty with set | ⟨exceeds, placed, _⟩
    · exact Or.inl set
    · exact Or.inr (Or.inr ⟨by omega, exceeds, placed⟩)

theorem appended_bytes (others : Nat → Prop) (s s' : SfsFs) (i i' : SfsInode) (map : FileMap s i.din others)
    (appended : Appended s s' i i') (pos : Nat) (inside : pos / 4096 < i.din.blocks) :
    fileByte s' i'.din pos = fileByte s i.din pos := by
  have bounded := map.bounded
  rw [fileByte, appended.slots (pos / 4096) (by omega) (by omega), appended_data s s' i i' others appended map _ inside]
  rfl

-- Writing one of the file's own blocks.
theorem store_grown (others : Nat → Prop) (s : SfsFs) (i : SfsInode) (q : Nat) (bytes : Bytes) (mounted : Mounted s)
    (map : FileMap s i.din others) (below : q < i.din.blocks) :
    Grown others s (s.store (slot s i.din q) bytes) i i 0 ∧
      ∀ pos, pos / 4096 < i.din.blocks →
        fileByte (s.store (slot s i.din q) bytes) i.din pos = if pos / 4096 = q then bytes (pos % 4096) else fileByte s i.din pos := by
  have foreign := (map.owned _ (Or.inr ⟨q, below, rfl⟩)).2.2.2
  have apart := map.apart q below
  have content : ∀ b, b ≠ slot s i.din q → (s.store (slot s i.din q) bytes).dev.data b = s.dev.data b := fun b other => by
    simp [SfsFs.store, other]
  have slots : ∀ k, slot (s.store (slot s i.din q) bytes) i.din k = slot s i.din k :=
    slot_frame s _ i.din fun _ => content _ fun same => apart same.symm
  have step := store_step others s (slot s i.din q) bytes foreign
  have mounted' := store_mounted s (slot s i.din q) bytes mounted
  have map' : FileMap (s.store (slot s i.din q) bytes) i.din others := by
    refine ⟨map.type, map.bounded, ?_, ?_, ?_, ?_, ?_, map.others⟩
    · intro k inside
      rw [slots]
      exact map.mapped k inside
    · intro k outside bound
      rw [slots]
      exact map.unmapped k outside bound
    · intro k l belowK belowL
      rw [slots, slots]
      exact map.distinct k l belowK belowL
    · intro k inside
      rw [slots]
      exact map.apart k inside
    · intro b refers
      exact map.owned b ((refers_congr s _ i.din slots b).mp refers)
  refine ⟨grown_still others s _ i ⟨mounted', map', step, rfl, rfl, fun _ exact => ?_, id⟩ (fun k _ => slots k) fun _ => rfl, ?_⟩
  · exact exact_congr s _ i.din others exact rfl (fun _ => rfl) slots
  · intro pos inside
    rw [fileByte, slots]
    by_cases here : pos / 4096 = q
    · simp [here, SfsFs.store]
    · rw [if_neg here, content]
      · rfl
      · exact fun same => here (map.distinct _ q inside below same)

end Ucore.Sfs
