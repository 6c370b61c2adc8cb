import Ucore.Sfs.FreshVolume

set_option autoImplicit false

namespace Ucore.Sfs

open Ucore.Lib

variable {n : Nat}

-- Where an inode refers to a block: its indirect slot, or one of its indices
-- below blocks.
inductive Place (n : Nat) where
  | indirect (file : Fin n)
  | index (file : Fin n) (k : Nat)

def Volume.At (v : Volume n) (b : Nat) : Place n → Prop
  | .indirect file => b = (v.files file).din.indirect ∧ b ≠ 0
  | .index file k => k < (v.files file).din.blocks ∧ slot v.sfs (v.files file).din k = b

-- Every block has one owner at most, and is in use exactly when it has one.
structure Volume.Owned (v : Volume n) (reserved : Nat → Prop) : Prop where
  inUse : ∀ b, b < v.sfs.super.blocks → (v.sfs.freemap.bit b = false ↔ reserved b ∨ ∃! place, v.At b place)
  once : ∀ b p q, v.At b p → v.At b q → p = q
  apart : ∀ b p, v.At b p → ¬ reserved b ∧ b ≠ 0 ∧ b < v.sfs.super.blocks
  handedOut : ∀ ino s', sfsBlockAlloc v.sfs = .ok (0, ino, s') → ino < v.sfs.super.blocks ∧ ∀ p, ¬ v.At ino p
  unused : v.sfs.super.unusedBlocks = v.sfs.freemap.count v.sfs.freemap.nbits

theorem at_refers (v : Volume n) (b : Nat) : (∃ place, v.At b place) ↔ ∃ file, Refers v.sfs (v.files file).din b := by
  constructor
  · rintro ⟨place, here⟩
    cases place with
    | indirect file => exact ⟨file, Or.inl here⟩
    | index file k => exact ⟨file, Or.inr ⟨k, here⟩⟩
  · rintro ⟨file, here | ⟨k, here⟩⟩
    · exact ⟨.indirect file, here⟩
    · exact ⟨.index file k, here⟩

theorem well_formed_once (v : Volume n) (reserved : Nat → Prop) (wf : v.WellFormed reserved) (b : Nat) (p q : Place n)
    (atP : v.At b p) (atQ : v.At b q) : p = q := by
  have sameFile : ∀ f g, Refers v.sfs (v.files f).din b → Refers v.sfs (v.files g).din b → f = g := by
    intro f g first second
    by_contra apart
    exact ((wf.maps f).owned b first).2.2.2 (Or.inr ⟨g, fun same => apart same.symm, second⟩)
  cases p with
  | indirect f =>
      cases q with
      | indirect g => rw [sameFile f g (Or.inl atP) (Or.inl atQ)]
      | index g k =>
          obtain rfl := sameFile f g (Or.inl atP) (Or.inr ⟨k, atQ⟩)
          exact absurd (atQ.2.trans atP.1) ((wf.maps f).apart k atQ.1)
  | index f k =>
      cases q with
      | indirect g =>
          obtain rfl := sameFile f g (Or.inr ⟨k, atP⟩) (Or.inl atQ)
          exact absurd (atP.2.trans atQ.1) ((wf.maps f).apart k atP.1)
      | index g l =>
          obtain rfl := sameFile f g (Or.inr ⟨k, atP⟩) (Or.inr ⟨l, atQ⟩)
          rw [(wf.maps f).distinct k l atP.1 atQ.1 (atP.2.trans atQ.2.symm)]

theorem well_formed_owned (v : Volume n) (reserved : Nat → Prop) (wf : v.WellFormed reserved) (noLeak : v.NoLeak reserved)
    (kept : ∀ b, reserved b → b < v.sfs.super.blocks ∧ v.sfs.freemap.bit b = false) : v.Owned reserved := by
  refine ⟨fun b bound => ?_, well_formed_once v reserved wf, fun b p here => ?_, fun ino s' result => ?_, wf.mounted.unused⟩
  · have unique : (∃! place, v.At b place) ↔ ∃ place, v.At b place :=
      ⟨ExistsUnique.exists, fun used => used.elim fun p here => ⟨p, here, fun q there => well_formed_once v reserved wf b q p there here⟩⟩
    rw [unique, at_refers]
    constructor
    · exact noLeak b bound
    · rintro (metadata | ⟨file, refers⟩)
      · exact (kept b metadata).2
      · exact ((wf.maps file).owned b refers).2.2.1
  · obtain ⟨file, refers⟩ := (at_refers v b).mp ⟨p, here⟩
    obtain ⟨named, bound, _, foreign⟩ := (wf.maps file).owned b refers
    exact ⟨fun metadata => foreign (Or.inl metadata), named, bound⟩
  · rcases block_alloc_spec v.sfs wf.mounted with ⟨full, _⟩ | ⟨ret, found, t, alloc, _, taken⟩
    · rw [full] at result
      cases result
    · rw [alloc] at result
      cases result
      refine ⟨taken.bound, fun p here => ?_⟩
      obtain ⟨file, refers⟩ := (at_refers v _).mp ⟨p, here⟩
      have used := ((wf.maps file).owned _ refers).2.2.1
      rw [taken.free] at used
      cases used

theorem block_ownership (v final : Volume n) (reserved : Nat → Prop) (events : List (Fin n × FileCall)) (image : v.Image reserved)
    (ran : run Volume.step v events = some final) : final.Owned reserved := by
  have image' := run_image v final reserved events image ran
  exact well_formed_owned final reserved image'.wellFormed image'.noLeak image'.kept

theorem block_ownership_cycle : ∃ final, run Volume.step (freshVolume 2)
      [(0, .truncfile 53248), (1, .io zeroBytes 0 5000 true), (0, .tryseek 200000), (0, .truncfile 100)] = some final ∧
    final.Owned (freshReserved 2) := by
  cases ran : run Volume.step (freshVolume 2)
      [(0, .truncfile 53248), (1, .io zeroBytes 0 5000 true), (0, .tryseek 200000), (0, .truncfile 100)] with
  | none =>
      have returns : (run Volume.step (freshVolume 2)
        [(0, .truncfile 53248), (1, .io zeroBytes 0 5000 true), (0, .tryseek 200000), (0, .truncfile 100)]).isSome := by
        decide +kernel
      simp [ran] at returns
  | some final => exact ⟨final, rfl, block_ownership (freshVolume 2) final (freshReserved 2) _ (fresh_image 2 (by decide)) ran⟩

end Ucore.Sfs
