import Ucore.Sfs.DiskLayout
import Ucore.Sfs.FilePanics

set_option autoImplicit false

namespace Ucore.Sfs

open Ucore.Lib

variable {n : Nat}

-- A truncation upwards that does not get to write the size.
def TruncStops (s : SfsFs) (din : SfsDiskInode) (len : Int) : Prop :=
  (0 ≤ len ∧ len ≤ maxFileSize) ∧ (din.size : Int) ≠ len ∧ din.blocks < blocksOf len.toNat ∧
    (s.dev.results = [] → s.super.unusedBlocks < needBlocks din (min (blocksOf len.toNat) 1036 - din.blocks))

-- The calls that map blocks past the last one and do not write the size.
def Extends (s : SfsFs) (din : SfsDiskInode) : FileCall → Prop
  | .io _ offset resid true => Moves offset resid ∧ offset.toNat / 4096 ≤ din.blocks ∧ din.blocks < blocksOf (ioEnd offset resid) ∧
      (s.dev.results = [] → GrowthStops s din (blocksOf (ioEnd offset resid)))
  | .io _ offset resid false => Moves offset resid ∧ offset < din.size ∧ offset.toNat / 4096 ≤ din.blocks ∧
      din.blocks < blocksOf (min (ioEnd offset resid) din.size)
  | .truncfile len => TruncStops s din len
  | .tryseek pos => (0 ≤ pos ∧ pos < maxFileSize) ∧ din.size < pos ∧ TruncStops s din pos

-- Such a call on a clean inode whose indirect block is there: only an entry of
-- that block and the count of blocks are written.
def MissesFlag (s : SfsFs) (i : SfsInode) (call : FileCall) : Prop :=
  (i.dirty = false ∧ 12 ≤ i.din.blocks ∧ i.din.indirect ≠ 0) ∧ (s.dev.results = [] → 0 < s.super.unusedBlocks) ∧ Extends s i.din call

instance (s : SfsFs) (din : SfsDiskInode) (len : Int) : Decidable (TruncStops s din len) :=
  inferInstanceAs (Decidable ((0 ≤ len ∧ len ≤ maxFileSize) ∧ (din.size : Int) ≠ len ∧ din.blocks < blocksOf len.toNat ∧
    (s.dev.results = [] → s.super.unusedBlocks < needBlocks din (min (blocksOf len.toNat) 1036 - din.blocks))))

instance (s : SfsFs) (din : SfsDiskInode) (call : FileCall) : Decidable (Extends s din call) :=
  match call with
  | .io _ offset resid true => inferInstanceAs (Decidable (Moves offset resid ∧ offset.toNat / 4096 ≤ din.blocks ∧
      din.blocks < blocksOf (ioEnd offset resid) ∧ (s.dev.results = [] → GrowthStops s din (blocksOf (ioEnd offset resid)))))
  | .io _ offset resid false => inferInstanceAs (Decidable (Moves offset resid ∧ offset < din.size ∧
      offset.toNat / 4096 ≤ din.blocks ∧ din.blocks < blocksOf (min (ioEnd offset resid) din.size)))
  | .truncfile len => inferInstanceAs (Decidable (TruncStops s din len))
  | .tryseek pos => inferInstanceAs (Decidable ((0 ≤ pos ∧ pos < maxFileSize) ∧ din.size < pos ∧ TruncStops s din pos))

instance (s : SfsFs) (i : SfsInode) (call : FileCall) : Decidable (MissesFlag s i call) :=
  inferInstanceAs (Decidable ((i.dirty = false ∧ 12 ≤ i.din.blocks ∧ i.din.indirect ≠ 0) ∧
    (s.dev.results = [] → 0 < s.super.unusedBlocks) ∧ Extends s i.din call))

section Calls

variable (others : Nat → Prop) (s : SfsFs) (i : SfsInode)

-- The flag after a call, and the size it leaves.
def Marked (missed : Prop) (i i' : SfsInode) : Prop :=
  (i'.dirty = true ∨ i' = i ∨ missed) ∧ (i'.din.size = i.din.size ∨ i'.din.size ≤ maxFileSize)

theorem grown_marked (extending : Prop) (s' : SfsFs) (i' : SfsInode) (m : Nat) (map : FileMap s i.din others)
    (grown : Grown others s s' i i' m) (more : 0 < m → extending) :
    Marked ((i.dirty = false ∧ 12 ≤ i.din.blocks ∧ i.din.indirect ≠ 0) ∧ (s.dev.results = [] → 0 < s.super.unusedBlocks) ∧ extending)
      i i' := by
  refine ⟨?_, Or.inl grown.size⟩
  rcases grown.marked with set | same | ⟨positive, exceeds, placed⟩
  · exact Or.inl set
  · exact Or.inr (Or.inl same)
  · cases dirty : i.dirty with
    | true => exact Or.inl (grown.effect.dirty dirty)
    | false =>
        refine Or.inr (Or.inr ⟨⟨rfl, exceeds, placed⟩, fun none => ?_, more positive⟩)
        have afford := grown_afford others s i s' i' m map none grown positive
        have cost : 0 < growCost i.din := by
          rw [growCost]
          split <;> omega
        omega

theorem truncfile_marked (len : Int) (superOthers : others 0) (mounted : Mounted s) (map : FileMap s i.din others) (ret : Int)
    (s' : SfsFs) (i' : SfsInode) (ran : sfsTruncfile s i len = .ok (ret, s', i')) :
    Marked ((i.dirty = false ∧ 12 ≤ i.din.blocks ∧ i.din.indirect ≠ 0) ∧ (s.dev.results = [] → 0 < s.super.unusedBlocks) ∧
      TruncStops s i.din len) i i' := by
  by_cases valid : 0 ≤ len ∧ len ≤ maxFileSize
  · by_cases same : (i.din.size : Int) = len
    · rw [truncfile_same s i len valid same] at ran
      split at ran
      · cases ran
        exact ⟨Or.inr (Or.inl rfl), Or.inl rfl⟩
      · cases ran
    · have resized : ∀ j : SfsInode, (j.resized len.toNat).din.size ≤ maxFileSize := fun j => by
        simp only [SfsInode.resized]
        omega
      by_cases up : i.din.blocks < roundUpDiv len.toNat 4096
      · rcases truncfile_grow others s i len superOthers mounted map valid same up with
          ⟨stopped, _⟩ | ⟨t, j, done, grown, _⟩ | ⟨_, t, j, m, _, failed, grown, fewer, short, _⟩
        · rw [stopped] at ran
          cases ran
        · rw [done] at ran
          cases ran
          exact ⟨Or.inl rfl, Or.inr (resized j)⟩
        · rw [failed] at ran
          cases ran
          refine grown_marked others s i _ _ _ m map grown fun positive => ⟨valid, same, up, fun none => ?_⟩
          obtain ⟨_, room, missing⟩ := short none
          have mono := need_mono i.din (m + 1) (min (blocksOf len.toNat) 1036 - i.din.blocks) (by simp only [blocksOf]; omega)
          omega
      · obtain ⟨code, t, j, m, done, shrunk, _⟩ := truncfile_shrink others s i len mounted map valid same (by omega)
        rw [done] at ran
        by_cases zero : code = 0
        · rw [if_pos zero] at ran
          cases ran
          exact ⟨Or.inl rfl, Or.inr (resized j)⟩
        · rw [if_neg zero] at ran
          cases ran
          rcases shrunk.marked with set | same
          · exact ⟨Or.inl set, Or.inl shrunk.size⟩
          · exact ⟨Or.inr (Or.inl same), Or.inl shrunk.size⟩
  · rw [truncfile_invalid s i len valid] at ran
    cases ran
    exact ⟨Or.inr (Or.inl rfl), Or.inl rfl⟩

theorem call_marked (call : FileCall) (superOthers : others 0) (mounted : Mounted s) (map : FileMap s i.din others) (reply : Reply)
    (s' : SfsFs) (i' : SfsInode) (ran : call.run s i = .ok (reply, s', i')) : Marked (MissesFlag s i call) i i' := by
  have still : Marked (MissesFlag s i call) i i := ⟨Or.inr (Or.inl rfl), Or.inl rfl⟩
  cases call with
  | io buf offset resid write =>
      simp only [FileCall.run] at ran
      by_cases moves : Moves offset resid
      · cases write with
        | true =>
            by_cases near : offset.toNat / 4096 ≤ i.din.blocks
            · rcases io_write_spec others s i buf offset resid superOthers mounted map moves near with
                ⟨stopped, _⟩ | ⟨ret, t, m, done, grown, _, _, covers, _⟩
              · rw [stopped] at ran
                cases ran
              · have settled := fun none => write_settled others s i superOthers mounted map none buf offset resid moves
                rw [done] at ran
                cases ran
                refine grown_marked others s i _ _ _ m map grown fun positive => ⟨moves, near, ?_, fun none => ?_⟩
                · have cover := covers positive
                  simp only [blocksOf]
                  omega
                · exact ((settled_returns _ _ (settled none)).mp ⟨_, done⟩).2
            · rw [io_write_past s i buf offset resid map.type moves (by omega)] at ran
              cases ran
        | false =>
            by_cases atEnd : (i.din.size : Int) ≤ offset
            · rw [io_read_end s i buf offset resid map.type moves atEnd] at ran
              cases ran
              exact still
            · by_cases near : offset.toNat / 4096 ≤ i.din.blocks
              · rcases io_read_spec others s i buf offset resid superOthers mounted map moves (by omega) near with
                  ⟨stopped, _⟩ | ⟨ret, t, m, done, grown, _, covers, _⟩
                · rw [stopped] at ran
                  cases ran
                · rw [done] at ran
                  cases ran
                  refine grown_marked others s i _ _ _ m map grown fun positive => ⟨moves, by omega, near, ?_⟩
                  have cover := covers positive
                  simp only [blocksOf]
                  omega
              · rw [io_read_past s i buf offset resid map.type moves (by omega) (by omega)] at ran
                cases ran
      · obtain ⟨ret, done⟩ := io_idle s i buf offset resid write map.type moves
        rw [done] at ran
        cases ran
        exact still
  | truncfile len =>
      simp only [FileCall.run] at ran
      cases done : sfsTruncfile s i len with
      | error fault => simp [done] at ran
      | ok result =>
          obtain ⟨ret, t, j⟩ := result
          rw [done] at ran
          cases ran
          exact truncfile_marked others s i len superOthers mounted map ret _ _ done
  | tryseek pos =>
      simp only [FileCall.run, sfsTryseek] at ran
      by_cases invalid : pos < 0 ∨ (maxFileSize : Int) ≤ pos
      · rw [if_pos invalid] at ran
        cases ran
        exact still
      · rw [if_neg invalid] at ran
        by_cases beyond : (i.din.size : Int) < pos
        · rw [if_pos beyond] at ran
          cases done : sfsTruncfile s i pos with
          | error fault => simp [done] at ran
          | ok result =>
              obtain ⟨ret, t, j⟩ := result
              rw [done] at ran
              cases ran
              obtain ⟨flag, size⟩ := truncfile_marked others s i pos superOthers mounted map ret _ _ done
              refine ⟨flag.imp_right (Or.imp_right fun misses => ⟨misses.1, misses.2.1, by omega, beyond, misses.2.2⟩), size⟩
        · rw [if_neg beyond] at ran
          cases ran
          exact still

end Calls

theorem freemap_block (v : Volume n) (reserved : Nat → Prop) (laid : v.Laid reserved) (w : Nat) (inside : w < v.sfs.freemap.nwords) :
    reserved (blknFreemap + w / 1024) := by
  rw [mounted_freemap_words v.sfs laid.wellFormed.mounted] at inside
  exact laid.freemapBlocks (w / 1024) (by omega)

-- The copies of a volume after a change that keeps the blocks of the records.
theorem kept_super_sound (v next : Volume n) (reserved : Nat → Prop) (laid : v.Laid reserved) (sound : v.FlagsSound)
    (data : ∀ b, reserved b → (∀ file, b ≠ (v.files file).ino) → next.sfs.dev.data b = v.sfs.dev.data b)
    (clean : next.sfs.superDirty = true ∨ (next.sfs.super = v.sfs.super ∧ next.sfs.freemap = v.sfs.freemap ∧
      next.sfs.superDirty = v.sfs.superDirty)) :
    (decodeSuper (next.sfs.dev.data blknSuper) ≠ next.sfs.super → next.sfs.superDirty = true) ∧
      ∀ w, w < next.sfs.freemap.nwords → diskWord next.sfs.dev.data w ≠ next.sfs.freemap.map w → next.sfs.superDirty = true := by
  rcases clean with dirty | ⟨super, freemap, dirty⟩
  · exact ⟨fun _ => dirty, fun _ _ _ => dirty⟩
  · rw [super, freemap, dirty]
    refine ⟨fun differs => sound.super ?_, fun w inside differs => sound.freemap w inside ?_⟩
    · rwa [← data blknSuper laid.wellFormed.superBlock fun file same => (laid.inodeBlocks file).2.1 same.symm]
    · have words := mounted_freemap_words v.sfs laid.wellFormed.mounted
      rw [diskWord, data _ (freemap_block v reserved laid w inside) ?_] at differs
      · exact differs
      · intro file same
        have away := (laid.inodeBlocks file).2.2
        omega

-- The blocks of the records and the inodes of all files after a call on one file.
theorem after_records (v : Volume n) (reserved : Nat → Prop) (file : Fin n) (s' : SfsFs) (i' : SfsInode)
    (effect : Effect (v.others reserved file) v.sfs s' (v.files file) i') :
    (∀ b, reserved b → (v.after file s' i').sfs.dev.data b = v.sfs.dev.data b) ∧
      ∀ g, ((v.after file s' i').files g).ino = (v.files g).ino := by
  refine ⟨fun b metadata => effect.step.data b (Or.inl metadata), fun g => ?_⟩
  by_cases here : g = file
  · rw [after_self v file s' i' g here, effect.ino, here]
  · rw [after_other v file s' i' g here]

theorem call_laid (v next : Volume n) (reserved : Nat → Prop) (file : Fin n) (call : FileCall) (laid : v.Laid reserved)
    (stepped : v.step (file, call) = some next) : next.Laid reserved := by
  have wf := laid.wellFormed
  obtain ⟨reply, s', i', ran, rfl⟩ := step_some v next (file, call) stepped
  have effect := call_effect _ v.sfs (v.files file) call (Or.inl wf.superBlock) wf.mounted (wf.maps file) reply s' i' ran
  obtain ⟨_, size⟩ := call_marked _ v.sfs (v.files file) call (Or.inl wf.superBlock) wf.mounted (wf.maps file) reply s' i' ran
  have super : (v.after file s' i').sfs.super = { v.sfs.super with unusedBlocks := s'.super.unusedBlocks } := effect.step.super
  obtain ⟨_, inos⟩ := after_records v reserved file s' i' effect
  refine ⟨after_well_formed v reserved file s' i' wf effect, ?_, ?_, ?_, ?_, ?_, ?_, ?_, ?_⟩
  · intro b metadata
    obtain ⟨bound, used⟩ := laid.kept b metadata
    rw [super]
    exact ⟨bound, effect.step.used b (Or.inl metadata) used⟩
  · rw [super]
    exact laid.freemapBlocks
  · intro g
    rw [inos g, super]
    exact laid.inodeBlocks g
  · intro f g same
    rw [inos f, inos g] at same
    exact laid.distinct f g same
  · intro g
    by_cases here : g = file
    · rw [after_self v file s' i' g here, effect.nlinks]
      exact laid.nlinks file
    · rw [after_other v file s' i' g here]
      exact laid.nlinks g
  · intro g
    by_cases here : g = file
    · rw [after_self v file s' i' g here]
      have before := laid.sizes file
      have small : maxFileSize < 2 ^ 32 := by decide
      omega
    · rw [after_other v file s' i' g here]
      exact laid.sizes g
  · rw [super]
    exact laid.magic
  · rw [super]
    exact laid.info

theorem call_flags (v next : Volume n) (reserved : Nat → Prop) (file : Fin n) (call : FileCall) (laid : v.Laid reserved)
    (sound : v.FlagsSound) (kept : ¬ MissesFlag v.sfs (v.files file) call) (stepped : v.step (file, call) = some next) :
    next.Laid reserved ∧ next.FlagsSound := by
  have wf := laid.wellFormed
  have laidNext := call_laid v next reserved file call laid stepped
  obtain ⟨reply, s', i', ran, rfl⟩ := step_some v next (file, call) stepped
  have effect := call_effect _ v.sfs (v.files file) call (Or.inl wf.superBlock) wf.mounted (wf.maps file) reply s' i' ran
  obtain ⟨flag, _⟩ := call_marked _ v.sfs (v.files file) call (Or.inl wf.superBlock) wf.mounted (wf.maps file) reply s' i' ran
  obtain ⟨data, inos⟩ := after_records v reserved file s' i' effect
  have header := kept_super_sound v _ reserved laid sound (fun b metadata _ => data b metadata) effect.step.clean
  refine ⟨laidNext, fun g differs => ?_, header.1, header.2⟩
  rw [inos g, data _ (laid.inodeBlocks g).1] at differs
  by_cases here : g = file
  · rw [after_self v file s' i' g here] at differs ⊢
    rcases flag with set | same | missed
    · exact set
    · rw [same, here] at differs
      rw [same]
      exact sound.inodes file differs
    · exact absurd missed kept
  · rw [after_other v file s' i' g here] at differs ⊢
    exact sound.inodes g differs

theorem fsync_spec (v : Volume n) (reserved : Nat → Prop) (file : Fin n) (laid : v.Laid reserved) :
    ∃ ret s' i', sfsFsync v.sfs (v.files file) = .ok (ret, s', i') ∧ Wrote v.sfs s' (· = (v.files file).ino) ∧
      i'.din = (v.files file).din ∧ i'.ino = (v.files file).ino ∧ (v.sfs.dev.results = [] → i'.dirty = false) ∧
      (i'.dirty = true ∨ decodeInode (s'.dev.data (v.files file).ino) = (v.files file).din ∨
        (v.files file).dirty = false ∧ s' = v.sfs) := by
  have fits := laid_inode_fits v reserved laid file
  obtain ⟨metadata, named, _⟩ := laid.inodeBlocks file
  cases marked : (v.files file).dirty with
  | false =>
      refine ⟨0, v.sfs, v.files file, ?_, wrote_refl v.sfs _, rfl, rfl, fun _ => marked, Or.inr (Or.inr ⟨rfl, rfl⟩)⟩
      rw [sfsFsync, marked, if_neg (by decide)]
  | true =>
      obtain ⟨ret, t, quiet, success, written⟩ := wbuf_spec v.sfs (encodeInode (v.files file).din) diskInodeSize (v.files file).ino 0
        laid.wellFormed.mounted named (laid.kept _ metadata).1 (by decide) (by decide)
      by_cases zero : ret = 0
      · refine ⟨0, t.store (v.files file).ino (memcpy (v.sfs.dev.data (v.files file).ino) 0 (encodeInode (v.files file).din) diskInodeSize),
          ⟨(v.files file).din, (v.files file).ino, false⟩, by simp [sfsFsync, marked, written, zero],
          quiet_store_wrote v.sfs t _ _ quiet, rfl, rfl, fun _ => rfl, Or.inr (Or.inl ?_)⟩
        simp only [SfsFs.store, Function.update_self]
        exact decode_encode_inode _ _ fits
      · exact ⟨ret, t, ⟨(v.files file).din, (v.files file).ino, true⟩, by simp [sfsFsync, marked, written, zero],
          quiet_wrote v.sfs t _ quiet, rfl, rfl, fun none => absurd (success none) zero, Or.inl rfl⟩

-- What fsync does to the volume: records only, and the flag of the one file.
theorem fsync_stored (v : Volume n) (reserved : Nat → Prop) (file : Fin n) (laid : v.Laid reserved) (s' : SfsFs) (i' : SfsInode)
    (wrote : Wrote v.sfs s' (· = (v.files file).ino)) (din : i'.din = (v.files file).din) (ino : i'.ino = (v.files file).ino) :
    v.Stored (v.after file s' i') reserved := by
  refine ⟨wrote.super, wrote.freemap, wrote.dBlocks, fun b outside => wrote.data b ?_, wrote.results, fun g => ?_, fun g => ?_⟩
  · rintro rfl
    exact outside (laid.inodeBlocks file).1
  · by_cases same : g = file
    · rw [same, after_self v file s' i' file rfl, din]
    · rw [after_other v file s' i' g same]
  · by_cases same : g = file
    · rw [same, after_self v file s' i' file rfl, ino]
    · rw [after_other v file s' i' g same]

theorem fsync_flags (v : Volume n) (reserved : Nat → Prop) (file : Fin n) (laid : v.Laid reserved) (sound : v.FlagsSound) :
    ∃ ret next, v.fsync file = .ok (ret, next) ∧ v.Stored next reserved ∧ next.FlagsSound ∧ next.sfs.superDirty = v.sfs.superDirty ∧
      (v.sfs.dev.results = [] → (next.files file).dirty = false) ∧ ∀ other, other ≠ file → next.files other = v.files other := by
  obtain ⟨ret, s', i', ran, wrote, din, ino, success, outcome⟩ := fsync_spec v reserved file laid
  have here := after_self v file s' i' file rfl
  have away := after_other v file s' i'
  have header := kept_super_sound v (v.after file s' i') reserved laid sound (fun b _ apart => wrote.data b (apart file))
    (Or.inr ⟨wrote.super, wrote.freemap, wrote.superDirty⟩)
  refine ⟨ret, v.after file s' i', by simp [Volume.fsync, ran, Volume.after], fsync_stored v reserved file laid s' i' wrote din ino,
    ⟨fun g differs => ?_, header.1, header.2⟩, wrote.superDirty, fun none => ?_, away⟩
  · by_cases same : g = file
    · rw [same, here] at differs ⊢
      rw [din, ino] at differs
      rcases outcome with set | stored | ⟨clean, still⟩
      · exact set
      · exact absurd stored differs
      · rw [Volume.after, still] at differs
        have dirty := sound.inodes file differs
        rw [clean] at dirty
        cases dirty
    · rw [away g same] at differs ⊢
      rw [show (v.after file s' i').sfs = s' from rfl, wrote.data _ fun collide => same (laid.distinct g file collide)] at differs
      exact sound.inodes g differs
  · rw [here]
    exact success none

theorem fsync_all_flags (reserved : Nat → Prop) (files : List (Fin n)) (v : Volume n) (laid : v.Laid reserved) (sound : v.FlagsSound) :
    ∃ next, v.fsyncAll files = .ok next ∧ v.Stored next reserved ∧ next.FlagsSound ∧ next.sfs.superDirty = v.sfs.superDirty ∧
      (v.sfs.dev.results = [] → (∀ file ∈ files, (next.files file).dirty = false) ∧
        ∀ file, (v.files file).dirty = false → (next.files file).dirty = false) := by
  induction files generalizing v with
  | nil => exact ⟨v, rfl, stored_refl v reserved, sound, rfl, fun _ => ⟨fun _ member => absurd member List.not_mem_nil, fun _ clean => clean⟩⟩
  | cons file rest ih =>
      obtain ⟨ret, w, first, stored, soundW, super, cleaned, others⟩ := fsync_flags v reserved file laid sound
      obtain ⟨next, later, storedNext, soundNext, superNext, cleanedNext⟩ := ih w (stored_laid v w reserved laid stored) soundW
      refine ⟨next, by simp [Volume.fsyncAll, first, later], stored_trans v w next reserved stored storedNext, soundNext,
        superNext.trans super, fun none => ?_⟩
      obtain ⟨inRest, still⟩ := cleanedNext (stored.results none)
      refine ⟨fun g member => ?_, fun g clean => still g ?_⟩
      · rcases List.mem_cons.mp member with here | inTail
        · rw [here]
          exact still file (cleaned none)
        · exact inRest g inTail
      · by_cases here : g = file
        · rw [here]
          exact cleaned none
        · rw [others g here]
          exact clean

def HeaderBlock (super : SfsSuper) (b : Nat) : Prop := b = blknSuper ∨ (blknFreemap ≤ b ∧ b < blknFreemap + sfsFreemapBlocks super)

section Header

variable (v : Volume n) (reserved : Nat → Prop) (laid : v.Laid reserved) (sound : v.FlagsSound) (s' : SfsFs) (before after : Bool)
  (wrote : Wrote { v.sfs with superDirty := before } s' (HeaderBlock v.sfs.super))

include laid wrote

theorem header_stored : v.Stored ⟨{ s' with superDirty := after }, v.files⟩ reserved := by
  refine ⟨wrote.super, wrote.freemap, wrote.dBlocks, fun b outside => wrote.data b ?_, wrote.results, fun _ => rfl, fun _ => rfl⟩
  rintro (here | ⟨lower, upper⟩)
  · exact outside (here ▸ laid.wellFormed.superBlock)
  · have metadata := laid.freemapBlocks (b - blknFreemap) (by omega)
    rw [show blknFreemap + (b - blknFreemap) = b by omega] at metadata
    exact outside metadata

include sound in
theorem header_flags (copied : after = true ∨ (decodeSuper (s'.dev.data blknSuper) = v.sfs.super ∧
    ∀ w, w < v.sfs.freemap.nwords → diskWord s'.dev.data w = v.sfs.freemap.map w)) :
    Volume.FlagsSound ⟨{ s' with superDirty := after }, v.files⟩ := by
  have super : s'.super = v.sfs.super := wrote.super
  have freemap : s'.freemap = v.sfs.freemap := wrote.freemap
  refine ⟨fun file differs => sound.inodes file ?_, fun differs => ?_, fun w inside differs => ?_⟩
  · simp only at differs
    rw [wrote.data _ ?_] at differs
    · exact differs
    · obtain ⟨_, named, away⟩ := laid.inodeBlocks file
      simp only [HeaderBlock]
      omega
  · rcases copied with set | ⟨same, _⟩
    · exact set
    · exact absurd (same.trans super.symm) differs
  · rcases copied with set | ⟨_, same⟩
    · exact set
    · simp only [freemap] at inside differs
      exact absurd (same w inside) differs

end Header

theorem sync_super_spec (v : Volume n) (reserved : Nat → Prop) (laid : v.Laid reserved) (before : Bool) :
    ∃ ret s', sfsSyncSuper { v.sfs with superDirty := before } = .ok (ret, s') ∧
      Wrote { v.sfs with superDirty := before } s' (HeaderBlock v.sfs.super) ∧ (v.sfs.dev.results = [] → ret = 0) ∧
      (ret = 0 → decodeSuper (s'.dev.data blknSuper) = v.sfs.super) := by
  obtain ⟨fits, small, nbits, words, past, superUsed, unused⟩ := laid.wellFormed.mounted
  have mounted : Mounted { v.sfs with superDirty := before } := ⟨fits, small, nbits, words, past, superUsed, unused⟩
  obtain ⟨ret, t, quiet, success, written⟩ := rwblock_spec { v.sfs with superDirty := before }
    (memcpy zeroBytes 0 (encodeSuper v.sfs.super) superSize) blknSuper true false mounted (Or.inr rfl)
    (laid.kept 0 laid.wellFormed.superBlock).1
  by_cases zero : ret = 0
  · refine ⟨ret, t.store blknSuper (memcpy zeroBytes 0 (encodeSuper v.sfs.super) superSize), ?_, ?_, success, fun _ => ?_⟩
    · simp [sfsSyncSuper, written, zero]
    · exact wrote_weaken _ _ _ _ (quiet_store_wrote _ t _ _ quiet) fun b here => Or.inl here
    · simp only [SfsFs.store, Function.update_self]
      exact decode_encode_super _ _ (laid_super_fits v reserved laid)
  · refine ⟨ret, t, ?_, quiet_wrote _ t _ quiet, success, fun done => absurd done zero⟩
    simp [sfsSyncSuper, written, zero]

theorem sync_freemap_spec (v : Volume n) (reserved : Nat → Prop) (laid : v.Laid reserved) (s : SfsFs) (before : Bool)
    (wrote : Wrote { v.sfs with superDirty := before } s (HeaderBlock v.sfs.super)) :
    ∃ ret s', sfsSyncFreemap s = .ok (ret, s') ∧ Wrote { v.sfs with superDirty := before } s' (HeaderBlock v.sfs.super) ∧
      (v.sfs.dev.results = [] → ret = 0) ∧ s'.dev.data blknSuper = s.dev.data blknSuper ∧
      (ret = 0 → ∀ w, w < v.sfs.freemap.nwords → diskWord s'.dev.data w = v.sfs.freemap.map w) := by
  obtain ⟨fits, small, nbits, words, past, superUsed, unused⟩ := laid.wellFormed.mounted
  have mounted : Mounted s := wrote_mounted _ s _ wrote ⟨fits, small, nbits, words, past, superUsed, unused⟩
  have super : s.super = v.sfs.super := wrote.super
  have freemap : s.freemap = v.sfs.freemap := wrote.freemap
  have room : blknFreemap + sfsFreemapBlocks s.super ≤ s.super.blocks := by
    rw [super]
    have first := (laid.kept 0 laid.wellFormed.superBlock).1
    have some : 0 < sfsFreemapBlocks v.sfs.super := by
      simp only [sfsFreemapBlocks, roundUpDiv, blkBits, blkSize]
      omega
    have last := (laid.kept _ (laid.freemapBlocks (sfsFreemapBlocks v.sfs.super - 1) (by omega))).1
    omega
  obtain ⟨ret, t, ran, body, success, content⟩ := wblock_spec (bitmapData s.freemap) blknFreemap (sfsFreemapBlocks s.super) s mounted
    (by decide) room
  rw [super] at body content
  refine ⟨ret, t, ran, wrote_trans _ s t _ wrote (wrote_weaken _ _ _ _ body fun b inside => Or.inr inside),
    fun none => success (wrote.results none), body.data _ (by simp [blknSuper, blknFreemap]), fun done w inside => ?_⟩
  have block : w / 1024 < sfsFreemapBlocks v.sfs.super := by
    rw [mounted_freemap_words v.sfs laid.wellFormed.mounted] at inside
    omega
  have word := bitmap_data_word v.sfs.freemap w
  have moved : getLe (t.dev.data (blknFreemap + w / 1024)) (w % 1024 * 4) 4 = getLe (bitmapData v.sfs.freemap) (4 * w) 4 := by
    rw [content done (w / 1024) block, freemap]
    refine get_le_congr _ _ _ _ 4 fun k below => ?_
    simp only [Bytes.from]
    congr 1
    omega
  rw [diskWord, moved, word, BitVec.ofNat_toNat, BitVec.setWidth_eq]

theorem sync_flags (v : Volume n) (reserved : Nat → Prop) (laid : v.Laid reserved) (sound : v.FlagsSound) :
    ∃ ret next, v.sync = .ok (ret, next) ∧ v.Stored next reserved ∧ next.FlagsSound ∧ (ret = 0 → next.sfs.superDirty = false) ∧
      (v.sfs.dev.results = [] → ret = 0 ∧ ∀ file, (next.files file).dirty = false) := by
  obtain ⟨w, walked, stored, soundW, super, cleaned⟩ := fsync_all_flags reserved (List.finRange n) v laid sound
  have laidW := stored_laid v w reserved laid stored
  have allClean : v.sfs.dev.results = [] → ∀ file, (w.files file).dirty = false := fun none file =>
    (cleaned none).1 file (List.mem_finRange file)
  cases marked : w.sfs.superDirty with
  | false => exact ⟨0, w, by simp [Volume.sync, walked, marked], stored, soundW, fun _ => marked, fun none => ⟨rfl, allClean none⟩⟩
  | true =>
      obtain ⟨ret, s, first, wrote, success, copied⟩ := sync_super_spec w reserved laidW false
      by_cases zero : ret = 0
      · obtain ⟨ret', t, second, wrote', success', kept, words⟩ := sync_freemap_spec w reserved laidW s false wrote
        by_cases zero' : ret' = 0
        · have clean : t.superDirty = false := wrote'.superDirty
          have flags := header_flags w reserved laidW soundW t false false wrote'
            (Or.inr ⟨by rw [kept]; exact copied zero, words zero'⟩)
          have whole := header_stored w reserved laidW t false false wrote'
          rw [show ({ t with superDirty := false } : SfsFs) = t by rw [← clean]] at flags whole
          refine ⟨0, ⟨t, w.files⟩, by simp [Volume.sync, walked, marked, first, zero, second, zero'], stored_trans v w _ reserved stored whole,
            flags, fun _ => clean, fun none => ⟨rfl, allClean none⟩⟩
        · refine ⟨ret', ⟨{ t with superDirty := true }, w.files⟩, by simp [Volume.sync, walked, marked, first, zero, second, zero'],
            stored_trans v w _ reserved stored (header_stored w reserved laidW t false true wrote'),
            header_flags w reserved laidW soundW t false true wrote' (Or.inl rfl), fun done => absurd done zero',
            fun none => absurd (success' (stored.results none)) zero'⟩
      · refine ⟨ret, ⟨{ s with superDirty := true }, w.files⟩, by simp [Volume.sync, walked, marked, first, zero],
          stored_trans v w _ reserved stored (header_stored w reserved laidW s false true wrote),
          header_flags w reserved laidW soundW s false true wrote (Or.inl rfl), fun done => absurd done zero,
          fun none => absurd (success (stored.results none)) zero⟩

end Ucore.Sfs
