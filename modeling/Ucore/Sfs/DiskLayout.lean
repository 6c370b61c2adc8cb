import Ucore.Sfs.DiskCopy

set_option autoImplicit false

namespace Ucore.Sfs

open Ucore.Lib

variable {n : Nat}

-- Where the records of a volume have their blocks, and what the fields that no
-- call changes hold.
structure Volume.Laid (v : Volume n) (reserved : Nat → Prop) : Prop where
  wellFormed : v.WellFormed reserved
  kept : ∀ b, reserved b → b < v.sfs.super.blocks ∧ v.sfs.freemap.bit b = false
  freemapBlocks : ∀ k, k < sfsFreemapBlocks v.sfs.super → reserved (blknFreemap + k)
  inodeBlocks : ∀ file, reserved (v.files file).ino ∧ (v.files file).ino ≠ blknSuper ∧
    ((v.files file).ino < blknFreemap ∨ blknFreemap + sfsFreemapBlocks v.sfs.super ≤ (v.files file).ino)
  distinct : ∀ f g, (v.files f).ino = (v.files g).ino → f = g
  nlinks : ∀ file, (v.files file).din.nlinks ≠ 0 ∧ (v.files file).din.nlinks < 2 ^ 16
  sizes : ∀ file, (v.files file).din.size < 2 ^ 32
  magic : v.sfs.super.magic = sfsMagic
  info : v.sfs.super.info 31 = 0

-- What differs from its copy on disk is marked.
structure Volume.FlagsSound (v : Volume n) : Prop where
  inodes : ∀ file, decodeInode (v.sfs.dev.data (v.files file).ino) ≠ (v.files file).din → (v.files file).dirty = true
  super : decodeSuper (v.sfs.dev.data blknSuper) ≠ v.sfs.super → v.sfs.superDirty = true
  freemap : ∀ w, w < v.sfs.freemap.nwords → diskWord v.sfs.dev.data w ≠ v.sfs.freemap.map w → v.sfs.superDirty = true

theorem count_le (b : Bitmap) (bound : Nat) : b.count bound ≤ bound := by
  induction bound with
  | zero => exact Nat.le_refl 0
  | succ bound ih =>
      have one := Bool.toNat_le (b.bit bound)
      rw [Bitmap.count]
      omega

theorem laid_inode_fits (v : Volume n) (reserved : Nat → Prop) (laid : v.Laid reserved) (file : Fin n) :
    InodeFits (v.files file).din := by
  have map := laid.wellFormed.maps file
  have small := laid.wellFormed.mounted.small
  have bounded := map.bounded
  refine ⟨laid.sizes file, ?_, (laid.nlinks file).2, by omega, fun k => ?_, ?_⟩
  · rw [map.type]
    decide
  · have atSlot : slot v.sfs (v.files file).din k = (v.files file).din.direct k := slot_direct v.sfs (v.files file).din k k.isLt
    by_cases below : (k : Nat) < (v.files file).din.blocks
    · have inside := (map.owned _ (Or.inr ⟨k, below, rfl⟩)).2.1
      rw [atSlot] at inside
      omega
    · have none := map.unmapped k (by omega) (by omega)
      rw [atSlot] at none
      omega
  · by_cases absent : (v.files file).din.indirect = 0
    · omega
    · have inside := (map.owned _ (Or.inl ⟨rfl, absent⟩)).2.1
      omega

theorem mounted_freemap_words (s : SfsFs) (mounted : Mounted s) : s.freemap.nwords = sfsFreemapBlocks s.super * 1024 := by
  have words := mounted.words
  rw [mounted.nbits, blkBits, blkSize] at words
  omega

theorem laid_super_fits (v : Volume n) (reserved : Nat → Prop) (laid : v.Laid reserved) : SuperFits v.sfs.super := by
  have small := laid.wellFormed.mounted.small
  have count := count_le v.sfs.freemap v.sfs.freemap.nbits
  have nbits := laid.wellFormed.mounted.nbits
  rw [← laid.wellFormed.mounted.unused, nbits, sfsFreemapBlocks, roundUpDiv, blkBits, blkSize] at count
  refine ⟨?_, by omega, by omega⟩
  rw [laid.magic]
  decide

-- A write of records: only reserved blocks and flags change.
structure Volume.Stored (v next : Volume n) (reserved : Nat → Prop) : Prop where
  super : next.sfs.super = v.sfs.super
  freemap : next.sfs.freemap = v.sfs.freemap
  dBlocks : next.sfs.dev.dBlocks = v.sfs.dev.dBlocks
  data : ∀ b, ¬ reserved b → next.sfs.dev.data b = v.sfs.dev.data b
  results : v.sfs.dev.results = [] → next.sfs.dev.results = []
  din : ∀ file, (next.files file).din = (v.files file).din
  ino : ∀ file, (next.files file).ino = (v.files file).ino

theorem stored_refl (v : Volume n) (reserved : Nat → Prop) : v.Stored v reserved := ⟨rfl, rfl, rfl, fun _ _ => rfl, id, fun _ => rfl, fun _ => rfl⟩

theorem stored_trans (v w x : Volume n) (reserved : Nat → Prop) (first : v.Stored w reserved) (second : w.Stored x reserved) :
    v.Stored x reserved :=
  ⟨second.super.trans first.super, second.freemap.trans first.freemap, second.dBlocks.trans first.dBlocks,
    fun b away => (second.data b away).trans (first.data b away), fun none => second.results (first.results none),
    fun file => (second.din file).trans (first.din file), fun file => (second.ino file).trans (first.ino file)⟩

theorem stored_laid (v next : Volume n) (reserved : Nat → Prop) (laid : v.Laid reserved) (stored : v.Stored next reserved) :
    next.Laid reserved := by
  have wf := laid.wellFormed
  have slots : ∀ file k, slot next.sfs (v.files file).din k = slot v.sfs (v.files file).din k := fun file =>
    slot_frame v.sfs next.sfs _ fun placed => stored.data _ fun metadata =>
      ((wf.maps file).owned _ (Or.inl ⟨rfl, placed⟩)).2.2.2 (Or.inl metadata)
  have refers : ∀ file b, Refers next.sfs (next.files file).din b ↔ Refers v.sfs (v.files file).din b := by
    intro file b
    rw [stored.din file]
    exact refers_congr v.sfs next.sfs _ (slots file) b
  have others : ∀ file b, next.others reserved file b ↔ v.others reserved file b := by
    intro file b
    simp only [Volume.others, refers]
  have mounted : Mounted next.sfs := by
    obtain ⟨fits, small, nbits, words, past, superUsed, unused⟩ := wf.mounted
    constructor
    all_goals simp only [stored.super, stored.freemap, stored.dBlocks]
    all_goals assumption
  refine ⟨⟨mounted, wf.superBlock, fun file => ?_⟩, ?_, ?_, ?_, ?_, ?_, ?_, ?_, ?_⟩
  · have map := wf.maps file
    rw [stored.din file]
    refine map_congr _ _ _ _ (others file) ⟨map.type, map.bounded, ?_, ?_, ?_, ?_, ?_, ?_⟩
    · intro k below
      rw [slots]
      exact map.mapped k below
    · intro k above bound
      rw [slots]
      exact map.unmapped k above bound
    · intro k l belowK belowL
      rw [slots, slots]
      exact map.distinct k l belowK belowL
    · intro k below
      rw [slots]
      exact map.apart k below
    · intro b refer
      rw [stored.super, stored.freemap]
      exact map.owned b ((refers_congr v.sfs next.sfs _ (slots file) b).mp refer)
    · intro b foreign
      rw [stored.super, stored.freemap]
      exact map.others b foreign
  · rw [stored.super, stored.freemap]
    exact laid.kept
  · rw [stored.super]
    exact laid.freemapBlocks
  · intro file
    rw [stored.ino file, stored.super]
    exact laid.inodeBlocks file
  · intro f g same
    rw [stored.ino f, stored.ino g] at same
    exact laid.distinct f g same
  · intro file
    rw [stored.din file]
    exact laid.nlinks file
  · intro file
    rw [stored.din file]
    exact laid.sizes file
  · rw [stored.super]
    exact laid.magic
  · rw [stored.super]
    exact laid.info

end Ucore.Sfs
