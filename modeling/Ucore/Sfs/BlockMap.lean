import Ucore.Sfs.IoSpec

set_option autoImplicit false

namespace Ucore.Sfs

open Ucore.Lib

-- The block an inode maps an index to; 0 stands for none.
def slot (sfs : SfsFs) (din : SfsDiskInode) (index : Nat) : Nat :=
  if bound : index < 12 then din.direct ⟨index, bound⟩
  else if din.indirect = 0 then 0
  else getLe (sfs.dev.data din.indirect) ((index - 12) * 4) 4

def Refers (sfs : SfsFs) (din : SfsDiskInode) (b : Nat) : Prop :=
  (b = din.indirect ∧ b ≠ 0) ∨ ∃ i, i < din.blocks ∧ slot sfs din i = b

-- A well-formed file inode beside blocks that belong to others: the indices
-- below blocks, and no others, are mapped to blocks of its own.
structure FileMap (sfs : SfsFs) (din : SfsDiskInode) (others : Nat → Prop) : Prop where
  type : din.type = typeFile
  bounded : din.blocks ≤ 1036
  mapped : ∀ i, i < din.blocks → slot sfs din i ≠ 0
  unmapped : ∀ i, din.blocks ≤ i → i < 1036 → slot sfs din i = 0
  distinct : ∀ i j, i < din.blocks → j < din.blocks → slot sfs din i = slot sfs din j → i = j
  apart : ∀ i, i < din.blocks → slot sfs din i ≠ din.indirect
  owned : ∀ b, Refers sfs din b → b ≠ 0 ∧ b < sfs.super.blocks ∧ sfs.freemap.bit b = false ∧ ¬ others b
  others : ∀ b, others b → b < sfs.super.blocks ∧ sfs.freemap.bit b = false

-- A change of the file system that leaves the blocks to keep as they are and
-- marks the super block when it or the freemap changes.
structure FsStep (keep : Nat → Prop) (s s' : SfsFs) : Prop where
  super : s'.super = { s.super with unusedBlocks := s'.super.unusedBlocks }
  dBlocks : s'.dev.dBlocks = s.dev.dBlocks
  nbits : s'.freemap.nbits = s.freemap.nbits
  nwords : s'.freemap.nwords = s.freemap.nwords
  data : ∀ b, keep b → s'.dev.data b = s.dev.data b
  used : ∀ b, keep b → s.freemap.bit b = false → s'.freemap.bit b = false
  clean : s'.superDirty = true ∨ (s'.super = s.super ∧ s'.freemap = s.freemap ∧ s'.superDirty = s.superDirty)
  results : s.dev.results = [] → s'.dev.results = []

theorem fs_step_refl (keep : Nat → Prop) (s : SfsFs) : FsStep keep s s :=
  ⟨rfl, rfl, rfl, rfl, fun _ _ => rfl, fun _ _ used => used, Or.inr ⟨rfl, rfl, rfl⟩, id⟩

theorem fs_step_trans (keep : Nat → Prop) (s t u : SfsFs) (first : FsStep keep s t) (second : FsStep keep t u) : FsStep keep s u := by
  constructor
  · rw [second.super, first.super]
  · rw [second.dBlocks, first.dBlocks]
  · rw [second.nbits, first.nbits]
  · rw [second.nwords, first.nwords]
  · exact fun b kept => (second.data b kept).trans (first.data b kept)
  · exact fun b kept used => second.used b kept (first.used b kept used)
  · rcases second.clean with dirty | ⟨super, freemap, dirty⟩
    · exact Or.inl dirty
    · rw [super, freemap, dirty]
      exact first.clean
  · exact fun none => second.results (first.results none)

theorem fs_step_weaken (keep fewer : Nat → Prop) (s t : SfsFs) (step : FsStep keep s t) (weaker : ∀ b, fewer b → keep b) :
    FsStep fewer s t :=
  ⟨step.super, step.dBlocks, step.nbits, step.nwords, fun b kept => step.data b (weaker b kept),
    fun b kept => step.used b (weaker b kept), step.clean, step.results⟩

theorem quiet_step (keep : Nat → Prop) (s s' : SfsFs) (quiet : Quiet s s') : FsStep keep s s' := by
  obtain ⟨_, rfl, still⟩ := quiet
  exact ⟨rfl, rfl, rfl, rfl, fun _ _ => rfl, fun _ _ used => used, Or.inr ⟨rfl, rfl, rfl⟩, still⟩

theorem store_step (keep : Nat → Prop) (s : SfsFs) (b : Nat) (bytes : Bytes) (away : ¬ keep b) : FsStep keep s (s.store b bytes) := by
  refine ⟨rfl, rfl, rfl, rfl, fun c kept => ?_, fun _ _ used => used, Or.inr ⟨rfl, rfl, rfl⟩, id⟩
  have apart : c ≠ b := by
    rintro rfl
    exact away kept
  simp [SfsFs.store, apart]

theorem store_mounted (s : SfsFs) (b : Nat) (bytes : Bytes) (mounted : Mounted s) : Mounted (s.store b bytes) :=
  ⟨mounted.fits, mounted.small, mounted.nbits, mounted.words, mounted.past, mounted.superUsed, mounted.unused⟩

theorem taken_step (keep : Nat → Prop) (s s' : SfsFs) (ino : Nat) (data : Nat → Bytes) (taken : Taken s s' ino data)
    (away : ¬ keep ino) (same : ∀ b, b ≠ ino → data b = s.dev.data b) : FsStep keep s s' := by
  constructor
  · rw [taken.super]
  · exact taken.dBlocks
  · exact taken.nbits
  · exact taken.nwords
  · intro b kept
    rw [taken.data]
    exact same b fun here => away (here ▸ kept)
  · intro b _ used
    simp [taken.bits b, used]
  · exact Or.inl taken.dirty
  · exact taken.results

theorem released_step (keep : Nat → Prop) (s s' : SfsFs) (ino : Nat) (released : Released s s' ino) (away : ¬ keep ino) :
    FsStep keep s s' := by
  constructor
  · rw [released.super]
  · rw [released.dev]
  · exact released.nbits
  · exact released.nwords
  · exact fun b _ => by rw [released.dev]
  · intro b kept used
    have apart : b ≠ ino := by
      rintro rfl
      exact away kept
    simp [released.bits b, used, apart]
  · exact Or.inl released.dirty
  · rw [released.dev]
    exact id

theorem alloc_data (s : SfsFs) (ino : Nat) (ret : Int) :
    ∀ b, b ≠ ino → (if ret = 0 then Function.update s.dev.data ino zeroBytes else s.dev.data) b = s.dev.data b := by
  intro b apart
  split
  · simp [apart]
  · rfl

-- A call that failed: nothing in use changed, and unless the device is to
-- blame, the free blocks are the same as before.
structure Refused (s s' : SfsFs) : Prop where
  mounted : Mounted s'
  step : FsStep (fun b => s.freemap.bit b = false) s s'
  restored : s.dev.results = [] → s'.super.unusedBlocks = s.super.unusedBlocks ∧ ∀ b, s'.freemap.bit b = s.freemap.bit b

theorem refused_quiet (s s' : SfsFs) (quiet : Quiet s s') (mounted : Mounted s) : Refused s s' := by
  refine ⟨quiet_mounted s s' quiet mounted, quiet_step _ s s' quiet, fun _ => ?_⟩
  obtain ⟨_, rfl, _⟩ := quiet
  exact ⟨rfl, fun _ => rfl⟩

theorem block_free_back (s t : SfsFs) (ino : Nat) (data : Nat → Bytes) (taken : Taken s t ino data) (mounted : Mounted s)
    (same : ∀ b, b ≠ ino → data b = s.dev.data b) : ∃ u, sfsBlockFree t ino = .ok u ∧ Refused s u := by
  have mountedT := taken_mounted s t ino data taken mounted
  have used : t.freemap.bit ino = false := by simp [taken.bits ino]
  have bound : ino < t.super.blocks := by
    rw [taken.super]
    exact taken.bound
  obtain ⟨u, freed, released⟩ := block_free_spec t ino mountedT taken.named bound used
  have away : ¬ (fun b => s.freemap.bit b = false) ino := by simp [taken.free]
  refine ⟨u, freed, released_mounted t u ino released mountedT taken.named bound used,
    fs_step_trans _ s t u (taken_step _ s t ino data taken away same) (released_step _ t u ino released away), fun _ => ?_⟩
  refine ⟨?_, fun b => ?_⟩
  · rw [released.super, taken.super]
    have available := taken.available
    simp only
    omega
  · rw [released.bits b, taken.bits b]
    by_cases here : b = ino
    · simp [here, taken.free]
    · have other : (b == ino) = false := by simpa using here
      simp [here, other]

-- The tail of sfs_bmap_get_sub_nolock on an entry block that is in place.
theorem get_sub_create_placed (s : SfsFs) (ent index : Nat) (mounted : Mounted s) (named : ent ≠ 0) (bound : ent < s.super.blocks)
    (used : s.freemap.bit ent = false) (small : index < 1024) :
    (∃ ino t u, bmapGetSubCreate s ent ent index = .ok (0, ent, ino, u.store ent (memcpy (s.dev.data ent) (index * 4) (toLe ino) 4)) ∧
      Taken s t ino (Function.update s.dev.data ino zeroBytes) ∧ Quiet t u) ∨
    ∃ ret s', ret ≠ 0 ∧ bmapGetSubCreate s ent ent index = .ok (ret, ent, 0, s') ∧ Refused s s' ∧
      (s.dev.results = [] → ret = eNoMem ∧ s.super.unusedBlocks = 0) := by
  rcases block_alloc_spec s mounted with ⟨full, none⟩ | ⟨ret, ino, t, result, success, taken⟩
  · refine Or.inr ⟨eNoMem, s, by decide, by simp [bmapGetSubCreate, full, eNoMem], refused_quiet s s (quiet_refl s) mounted, ?_⟩
    exact fun _ => ⟨rfl, none⟩
  · by_cases zero : ret = 0
    · simp only [zero, if_true] at taken
      have mountedT := taken_mounted s t ino _ taken mounted
      have apart : ent ≠ ino := by
        rintro rfl
        simp [taken.free] at used
      obtain ⟨ret', u, quiet, written, wrote⟩ := wbuf_spec t (toLe ino) 4 ent (index * 4) mountedT named
        (by rw [taken.super]; exact bound) (by omega) (by omega)
      have content : t.dev.data ent = s.dev.data ent := by simp [taken.data, apart]
      rw [content] at wrote
      by_cases zero' : ret' = 0
      · refine Or.inl ⟨ino, t, u, ?_, taken, quiet⟩
        simp only [zero', if_true] at wrote
        simp [bmapGetSubCreate, result, zero, wrote]
      · simp only [zero', if_false] at wrote
        have takenU : Taken s u ino (Function.update s.dev.data ino zeroBytes) := by
          obtain ⟨_, rfl, still⟩ := quiet
          exact ⟨taken.super, taken.available, taken.dirty, taken.nbits, taken.nwords, taken.bits, taken.free, taken.named,
            taken.bound, taken.dBlocks, taken.data, fun none => still (taken.results none)⟩
        obtain ⟨v, freed, refused⟩ := block_free_back s u ino _ takenU mounted fun b other => by simp [other]
        refine Or.inr ⟨ret', v, zero', ?_, refused, fun none => absurd (written (taken.results none)) zero'⟩
        simp [bmapGetSubCreate, result, zero, wrote, zero', freed]
    · simp only [zero, if_false] at taken
      refine Or.inr ⟨ret, t, zero, by simp [bmapGetSubCreate, result, zero], ⟨taken_mounted s t ino _ taken mounted, ?_, ?_⟩, ?_⟩
      · exact taken_step _ s t ino _ taken (by simp [taken.free]) fun _ _ => rfl
      · exact fun none => absurd (success none) zero
      · exact fun none => absurd (success none) zero

-- The same tail on an entry block that has just been allocated.
theorem get_sub_create_fresh (r s : SfsFs) (ent index : Nat) (placed : Taken r s ent (Function.update r.dev.data ent zeroBytes))
    (mountedR : Mounted r) (small : index < 1024) :
    (∃ ino t u, bmapGetSubCreate s 0 ent index = .ok (0, ent, ino, u.store ent (memcpy zeroBytes (index * 4) (toLe ino) 4)) ∧
      Taken s t ino (Function.update s.dev.data ino zeroBytes) ∧ Quiet t u) ∨
    ∃ ret s', ret ≠ 0 ∧ bmapGetSubCreate s 0 ent index = .ok (ret, 0, 0, s') ∧ Refused r s' ∧
      (r.dev.results = [] → ret = eNoMem ∧ s.super.unusedBlocks = 0) := by
  have mounted := taken_mounted r s ent _ placed mountedR
  have bound : ent < s.super.blocks := by
    rw [placed.super]
    exact placed.bound
  have used : s.freemap.bit ent = false := by simp [placed.bits ent]
  have named := placed.named
  have clear : ∀ b, b ≠ ent → Function.update r.dev.data ent zeroBytes b = r.dev.data b := fun b other => by simp [other]
  rcases block_alloc_spec s mounted with ⟨full, none⟩ | ⟨ret, ino, t, result, success, taken⟩
  · obtain ⟨u, freed, refused⟩ := block_free_back r s ent _ placed mountedR clear
    refine Or.inr ⟨eNoMem, u, by decide, ?_, refused, fun _ => ⟨rfl, none⟩⟩
    simp [bmapGetSubCreate, full, eNoMem, named, freed]
  · have apart : ent ≠ ino := by
      rintro rfl
      have free := taken.free
      simp [used] at free
    have away : r.freemap.bit ino = true := by
      have free := taken.free
      rw [placed.bits ino] at free
      simp at free
      exact free.1
    have stepS : FsStep (fun b => r.freemap.bit b = false) r s := taken_step _ r s ent _ placed (by simp [placed.free]) clear
    have stepT : FsStep (fun b => r.freemap.bit b = false) s t :=
      taken_step _ s t ino _ taken (by simp [away]) (alloc_data s ino ret)
    have mountedT := taken_mounted s t ino _ taken mounted
    have boundT : ent < t.super.blocks := by
      rw [taken.super]
      exact bound
    have usedT : t.freemap.bit ent = false := by simp [taken.bits ent, used]
    by_cases zero : ret = 0
    · simp only [zero, if_true] at taken
      obtain ⟨ret', u, quiet, written, wrote⟩ := wbuf_spec t (toLe ino) 4 ent (index * 4) mountedT named boundT (by omega) (by omega)
      have content : t.dev.data ent = zeroBytes := by simp [taken.data, placed.data, apart]
      rw [content] at wrote
      by_cases zero' : ret' = 0
      · refine Or.inl ⟨ino, t, u, ?_, taken, quiet⟩
        simp only [zero', if_true] at wrote
        simp [bmapGetSubCreate, result, zero, wrote]
      · simp only [zero', if_false] at wrote
        have takenU : Taken s u ino (Function.update s.dev.data ino zeroBytes) := by
          obtain ⟨_, rfl, still⟩ := quiet
          exact ⟨taken.super, taken.available, taken.dirty, taken.nbits, taken.nwords, taken.bits, taken.free, taken.named,
            taken.bound, taken.dBlocks, taken.data, fun none => still (taken.results none)⟩
        have mountedU := taken_mounted s u ino _ takenU mounted
        have usedU : u.freemap.bit ino = false := by simp [takenU.bits ino]
        have boundU : ino < u.super.blocks := by
          rw [takenU.super]
          exact taken.bound
        obtain ⟨v, freed, released⟩ := block_free_spec u ino mountedU taken.named boundU usedU
        have mountedV := released_mounted u v ino released mountedU taken.named boundU usedU
        have usedV : v.freemap.bit ent = false := by simp [released.bits ent, takenU.bits ent, used, apart]
        have boundV : ent < v.super.blocks := by
          rw [released.super, takenU.super]
          exact bound
        obtain ⟨w, freedEnt, releasedEnt⟩ := block_free_spec v ent mountedV named boundV usedV
        refine Or.inr ⟨ret', w, zero', ?_, ⟨?_, ?_, ?_⟩, ?_⟩
        · simp [bmapGetSubCreate, result, zero, wrote, zero', freed, named, freedEnt]
        · exact released_mounted v w ent releasedEnt mountedV named boundV usedV
        · refine fs_step_trans _ r s w stepS (fs_step_trans _ s t w ?_ (fs_step_trans _ t u w (quiet_step _ t u quiet)
            (fs_step_trans _ u v w ?_ ?_)))
          · exact taken_step _ s t ino _ taken (by simp [away]) fun b other => by simp [other]
          · exact released_step _ u v ino released (by simp [away])
          · exact released_step _ v w ent releasedEnt (by simp [placed.free])
        · exact fun none => absurd (written (taken.results (placed.results none))) zero'
        · exact fun none => absurd (written (taken.results (placed.results none))) zero'
    · obtain ⟨v, freed, released⟩ := block_free_spec t ent mountedT named boundT usedT
      refine Or.inr ⟨ret, v, zero, ?_, ⟨?_, ?_, ?_⟩, ?_⟩
      · simp [bmapGetSubCreate, result, zero, named, freed]
      · exact released_mounted t v ent released mountedT named boundT usedT
      · exact fs_step_trans _ r s v stepS (fs_step_trans _ s t v stepT (released_step _ t v ent released (by simp [placed.free])))
      · exact fun none => absurd (success (placed.results none)) zero
      · exact fun none => absurd (success (placed.results none)) zero

end Ucore.Sfs
