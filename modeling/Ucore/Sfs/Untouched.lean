import Ucore.Sfs.ByteFile
import Ucore.Sfs.DirtyFlags
import Ucore.Sfs.ReadExact

set_option autoImplicit false

namespace Ucore.Sfs

open Ucore.Lib

variable {n : Nat}

-- What stays of a file: its record, its bytes and its blocks.
structure Volume.Keeps (v next : Volume n) (file : Fin n) : Prop where
  din : (next.files file).din = (v.files file).din
  content : next.content file = v.content file
  blocks : ∀ b, Refers next.sfs (next.files file).din b ↔ Refers v.sfs (v.files file).din b

theorem keeps_refl (v : Volume n) (file : Fin n) : v.Keeps v file := ⟨rfl, rfl, fun _ => Iff.rfl⟩

theorem keeps_trans (v w x : Volume n) (file : Fin n) (first : v.Keeps w file) (second : w.Keeps x file) : v.Keeps x file :=
  ⟨second.din.trans first.din, second.content.trans first.content, fun b => (second.blocks b).trans (first.blocks b)⟩

-- The blocks mapped hold all of the file.
def Volume.CoveredAt (v : Volume n) (file : Fin n) : Prop := (v.files file).din.size ≤ (v.files file).din.blocks * 4096

-- The records of all files and the freemap stay.
structure Volume.Quieted (v next : Volume n) : Prop where
  sfs : Quiet v.sfs next.sfs
  files : next.files = v.files

theorem quieted_keeps (v next : Volume n) (quiet : v.Quieted next) (file : Fin n) : v.Keeps next file := by
  have data := quiet_data v.sfs next.sfs quiet.sfs
  have slots : ∀ k, slot next.sfs (v.files file).din k = slot v.sfs (v.files file).din k :=
    slot_frame v.sfs next.sfs _ fun _ => by rw [data]
  refine ⟨by rw [quiet.files], ?_, fun b => ?_⟩
  · rw [Volume.content, Volume.content, quiet.files]
    refine congrArg (bytesOf · _) (funext fun pos => ?_)
    rw [fileByte, fileByte, slots, data]
  · rw [quiet.files]
    exact refers_congr v.sfs next.sfs _ slots b

theorem quieted_stored (v next : Volume n) (reserved : Nat → Prop) (quiet : v.Quieted next) : v.Stored next reserved := by
  obtain ⟨⟨results, same, none⟩, files⟩ := quiet
  refine ⟨?_, ?_, ?_, fun _ _ => ?_, fun clear => ?_, fun _ => by rw [files], fun _ => by rw [files]⟩
  all_goals simp only [same]
  exact none clear

section Reads

theorem read_quieted (v : Volume n) (reserved : Nat → Prop) (laid : v.Laid reserved) (file : Fin n) (covered : v.CoveredAt file)
    (buf : Bytes) (offset : Int) (resid : Nat) (next : Volume n) (stepped : v.step (file, .io buf offset resid false) = some next) :
    v.Quieted next := by
  have wf := laid.wellFormed
  have map := wf.maps file
  obtain ⟨reply, s', i', ran, rfl⟩ := step_some v next _ stepped
  simp only [FileCall.run] at ran
  obtain ⟨⟨ret, s⟩, io, ran⟩ := bind_ok ran
  simp only [pure_ok, Except.ok.injEq, Prod.mk.injEq] at ran
  obtain ⟨_, rfl, rfl⟩ := ran
  obtain ⟨⟨ret', t⟩, loop, io⟩ := bind_ok io
  obtain ⟨_, io⟩ := check_bind_ok io
  simp only [pure_ok, Except.ok.injEq, Prod.mk.injEq] at io
  obtain ⟨rfl, rfl⟩ := io
  have still : Quiet v.sfs t.sfs ∧ t.sin = v.files file := by
    by_cases moves : Moves offset resid
    · rw [io_nolock_read v.sfs (v.files file) buf offset resid map.type moves] at loop
      by_cases atEnd : ((v.files file).din.size : Int) ≤ offset
      · rw [if_pos atEnd] at loop
        cases loop
        exact ⟨quiet_refl v.sfs, rfl⟩
      · rw [if_neg atEnd] at loop
        have later := moves_end offset resid moves
        have start : offset.toNat ≤ min (ioEnd offset resid) (v.files file).din.size := by omega
        obtain ⟨code, u, _, done, reads, _⟩ := read_loop (min (ioEnd offset resid) (v.files file).din.size)
          (min (ioEnd offset resid) (v.files file).din.size - offset.toNat + 1) ⟨buf, 0, v.sfs, v.files file⟩ offset.toNat wf.mounted map.bounded
          (map_in_use _ _ _ map) start (Nat.min_le_right _ _) covered (by omega)
        rw [done] at loop
        cases loop
        exact ⟨reads.quiet, reads.sin⟩
    · obtain ⟨code, done⟩ := io_nolock_idle v.sfs (v.files file) buf offset resid false map.type moves
      rw [done] at loop
      cases loop
      exact ⟨quiet_refl v.sfs, rfl⟩
  refine ⟨still.1, ?_⟩
  rw [Volume.after, still.2, Function.update_eq_self]

end Reads

section Other

-- The bytes and the blocks of a file after a call on another one.
theorem other_keeps (v next : Volume n) (reserved : Nat → Prop) (laid : v.Laid reserved) (file other : Fin n) (apart : other ≠ file)
    (covered : v.CoveredAt other) (call : FileCall) (stepped : v.step (file, call) = some next) : v.Keeps next other := by
  obtain ⟨s', i', rfl, effect⟩ := step_effect v next reserved (file, call) laid.wellFormed stepped
  have same := after_other v file s' i' other apart
  refine ⟨by rw [same], other_content v reserved file s' i' effect other apart covered, fun b => ?_⟩
  rw [same]
  exact other_refers v reserved file s' i' effect other apart b

theorem stored_keeps (v next : Volume n) (reserved : Nat → Prop) (laid : v.Laid reserved) (stored : v.Stored next reserved) (file : Fin n)
    (covered : v.CoveredAt file) : v.Keeps next file := by
  have map := laid.wellFormed.maps file
  have own : ∀ b, Refers v.sfs (v.files file).din b → ¬ reserved b := fun b refers metadata =>
    (map.owned b refers).2.2.2 (Or.inl metadata)
  have slots : ∀ k, slot next.sfs (v.files file).din k = slot v.sfs (v.files file).din k :=
    slot_frame v.sfs next.sfs _ fun placed => stored.data _ (own _ (Or.inl ⟨rfl, placed⟩))
  refine ⟨stored.din file, ?_, fun b => ?_⟩
  · rw [Volume.content, Volume.content, stored.din file]
    refine List.map_congr_left fun pos inside => ?_
    have below : pos / 4096 < (v.files file).din.blocks := by
      simp only [List.mem_range] at inside
      simp only [Volume.CoveredAt] at covered
      omega
    rw [fileByte, fileByte, slots, stored.data _ (own _ (Or.inr ⟨_, below, rfl⟩))]
  · rw [stored.din file]
    exact refers_congr v.sfs next.sfs _ slots b

theorem fsync_quiet (v next : Volume n) (reserved : Nat → Prop) (laid : v.Laid reserved) (file : Fin n) (ret : Int)
    (ran : v.fsync file = .ok (ret, next)) : v.Stored next reserved := by
  obtain ⟨code, s', i', done, wrote, din, ino, _⟩ := fsync_spec v reserved file laid
  simp only [Volume.fsync, done, ok_bind, pure_ok, Except.ok.injEq, Prod.mk.injEq] at ran
  obtain ⟨_, rfl⟩ := ran
  exact fsync_stored v reserved file laid s' i' wrote din ino

end Other

end Ucore.Sfs
