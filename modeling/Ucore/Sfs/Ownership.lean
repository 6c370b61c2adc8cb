import Ucore.Sfs.Volume

set_option autoImplicit false

namespace Ucore.Sfs

open Ucore.Lib

variable {n : Nat}

-- The volume after a call on one of its files.
def Volume.after (v : Volume n) (file : Fin n) (sfs : SfsFs) (sin : SfsInode) : Volume n :=
  ⟨sfs, Function.update v.files file sin⟩

theorem step_some (v next : Volume n) (event : Fin n × FileCall) (stepped : v.step event = some next) :
    ∃ reply sfs sin, event.2.run v.sfs (v.files event.1) = .ok (reply, sfs, sin) ∧ next = v.after event.1 sfs sin := by
  cases ran : event.2.run v.sfs (v.files event.1) with
  | error fault => simp [Volume.step, ran, Except.toOption] at stepped
  | ok result =>
      obtain ⟨reply, sfs, sin⟩ := result
      refine ⟨reply, sfs, sin, rfl, ?_⟩
      simpa [Volume.step, ran, Except.toOption, Volume.after, eq_comm] using stepped

section AfterCall

variable (v : Volume n) (reserved : Nat → Prop) (file : Fin n) (s' : SfsFs) (i' : SfsInode)

theorem other_refers (effect : Effect (v.others reserved file) v.sfs s' (v.files file) i') (other : Fin n) (apart : other ≠ file)
    (b : Nat) : Refers s' (v.files other).din b ↔ Refers v.sfs (v.files other).din b := by
  refine refers_congr v.sfs s' _ (slot_frame v.sfs s' _ fun placed => effect.step.data _ ?_) b
  exact Or.inr ⟨other, apart, Or.inl ⟨rfl, placed⟩⟩

theorem after_self (g : Fin n) (same : g = file) : (v.after file s' i').files g = i' := by
  simp [Volume.after, same]

theorem after_other (g : Fin n) (apart : g ≠ file) : (v.after file s' i').files g = v.files g := by
  simp [Volume.after, apart]

theorem after_others_self (effect : Effect (v.others reserved file) v.sfs s' (v.files file) i') (b : Nat) :
    (v.after file s' i').others reserved file b ↔ v.others reserved file b := by
  simp only [Volume.others]
  refine or_congr_right (exists_congr fun g => and_congr_right fun apart => ?_)
  rw [after_other v file s' i' g apart]
  exact other_refers v reserved file s' i' effect g apart b

theorem map_congr (s : SfsFs) (din : SfsDiskInode) (others others' : Nat → Prop) (same : ∀ b, others' b ↔ others b)
    (map : FileMap s din others) : FileMap s din others' := by
  have equal : others' = others := funext fun b => propext (same b)
  rw [equal]
  exact map

theorem after_well_formed (wf : v.WellFormed reserved) (effect : Effect (v.others reserved file) v.sfs s' (v.files file) i') :
    (v.after file s' i').WellFormed reserved := by
  refine ⟨effect.mounted, wf.superBlock, fun g => ?_⟩
  by_cases here : g = file
  · subst here
    rw [after_self v g s' i' g rfl]
    exact map_congr _ _ _ _ (after_others_self v reserved g s' i' effect) effect.map
  · have map := wf.maps g
    have slots : ∀ k, slot s' (v.files g).din k = slot v.sfs (v.files g).din k :=
      slot_frame v.sfs s' _ fun placed => effect.step.data _ (Or.inr ⟨g, here, Or.inl ⟨rfl, placed⟩⟩)
    have blocks := fs_step_blocks _ v.sfs s' effect.step
    rw [after_other v file s' i' g here]
    refine ⟨map.type, map.bounded, ?_, ?_, ?_, ?_, ?_, ?_⟩
    · intro k below
      exact (slots k) ▸ map.mapped k below
    · intro k above bound
      exact (slots k).trans (map.unmapped k above bound)
    · intro k l belowK belowL same
      exact map.distinct k l belowK belowL (((slots k).symm.trans same).trans (slots l))
    · intro k below
      exact (slots k) ▸ map.apart k below
    · intro b refers
      have before := (other_refers v reserved file s' i' effect g here b).mp refers
      obtain ⟨named, bound, used, foreign⟩ := map.owned b before
      refine ⟨named, by rw [show (v.after file s' i').sfs.super.blocks = v.sfs.super.blocks from blocks]; exact bound,
        effect.step.used b (Or.inr ⟨g, here, before⟩) used, ?_⟩
      rintro (kept | ⟨h, apart, claimed⟩)
      · exact foreign (Or.inl kept)
      · by_cases atFile : h = file
        · rw [after_self v file s' i' h atFile] at claimed
          exact (effect.map.owned b claimed).2.2.2 (Or.inr ⟨g, here, before⟩)
        · rw [after_other v file s' i' h atFile] at claimed
          exact foreign (Or.inr ⟨h, apart, (other_refers v reserved file s' i' effect h atFile b).mp claimed⟩)
    · rintro b (kept | ⟨h, apart, claimed⟩)
      · obtain ⟨bound, used⟩ := effect.map.others b (Or.inl kept)
        exact ⟨bound, used⟩
      · by_cases atFile : h = file
        · rw [after_self v file s' i' h atFile] at claimed
          obtain ⟨_, bound, used, _⟩ := effect.map.owned b claimed
          exact ⟨bound, used⟩
        · rw [after_other v file s' i' h atFile] at claimed
          exact effect.map.others b (Or.inr ⟨h, atFile, (other_refers v reserved file s' i' effect h atFile b).mp claimed⟩)

theorem others_refers (b : Nat) :
    v.others reserved file b ∨ Refers v.sfs (v.files file).din b ↔ reserved b ∨ ∃ g, Refers v.sfs (v.files g).din b := by
  constructor
  · rintro ((kept | ⟨g, _, claimed⟩) | own)
    · exact Or.inl kept
    · exact Or.inr ⟨g, claimed⟩
    · exact Or.inr ⟨file, own⟩
  · rintro (kept | ⟨g, claimed⟩)
    · exact Or.inl (Or.inl kept)
    · by_cases here : g = file
      · exact Or.inr (here ▸ claimed)
      · exact Or.inl (Or.inr ⟨g, here, claimed⟩)

theorem exact_of_no_leak (wf : v.WellFormed reserved) (noLeak : v.NoLeak reserved) :
    Exact v.sfs (v.files file).din (v.others reserved file) := by
  intro b bound
  rw [others_refers]
  constructor
  · exact noLeak b bound
  · rintro owned
    rcases (others_refers v reserved file b).mpr owned with foreign | own
    · exact ((wf.maps file).others b foreign).2
    · exact ((wf.maps file).owned b own).2.2.1

theorem after_no_leak (wf : v.WellFormed reserved) (effect : Effect (v.others reserved file) v.sfs s' (v.files file) i')
    (noLeak : v.NoLeak reserved) (none : v.sfs.dev.results = []) : (v.after file s' i').NoLeak reserved := by
  have exact := effect.exact none (exact_of_no_leak v reserved file wf noLeak)
  intro b bound used
  have owned := (exact b bound).mp used
  rw [← after_others_self v reserved file s' i' effect] at owned
  refine (others_refers (v.after file s' i') reserved file b).mp ?_
  rw [after_self v file s' i' file rfl]
  exact owned

end AfterCall

theorem step_effect (v next : Volume n) (reserved : Nat → Prop) (event : Fin n × FileCall) (wf : v.WellFormed reserved)
    (stepped : v.step event = some next) :
    ∃ s' i', next = v.after event.1 s' i' ∧ Effect (v.others reserved event.1) v.sfs s' (v.files event.1) i' := by
  obtain ⟨reply, s', i', ran, rfl⟩ := step_some v next event stepped
  exact ⟨s', i', rfl, call_effect _ v.sfs _ event.2 (Or.inl wf.superBlock) wf.mounted (wf.maps event.1) reply s' i' ran⟩

-- Reserved blocks are in use on the image that is mounted.
structure Volume.Image (v : Volume n) (reserved : Nat → Prop) : Prop where
  wellFormed : v.WellFormed reserved
  noLeak : v.NoLeak reserved
  kept : ∀ b, reserved b → b < v.sfs.super.blocks ∧ v.sfs.freemap.bit b = false
  noFault : v.sfs.dev.results = []

theorem step_image (v next : Volume n) (reserved : Nat → Prop) (event : Fin n × FileCall) (image : v.Image reserved)
    (stepped : v.step event = some next) : next.Image reserved := by
  obtain ⟨s', i', rfl, effect⟩ := step_effect v next reserved event image.wellFormed stepped
  refine ⟨after_well_formed v reserved event.1 s' i' image.wellFormed effect,
    after_no_leak v reserved event.1 s' i' image.wellFormed effect image.noLeak image.noFault, fun b metadata => ?_,
    effect.step.results image.noFault⟩
  obtain ⟨bound, used⟩ := image.kept b metadata
  exact ⟨by rw [show (v.after event.1 s' i').sfs.super.blocks = _ from fs_step_blocks _ v.sfs s' effect.step]; exact bound,
    effect.step.used b (Or.inl metadata) used⟩

theorem run_image (v final : Volume n) (reserved : Nat → Prop) (events : List (Fin n × FileCall)) (image : v.Image reserved)
    (ran : run Volume.step v events = some final) : final.Image reserved :=
  run_invariant Volume.step (fun _ _ => True) (fun v => v.Image reserved)
    (fun v event next image _ stepped => step_image v next reserved event image stepped) events v final image
    (throughout_trivial Volume.step _ (fun _ _ => trivial) events v) ran

end Ucore.Sfs
