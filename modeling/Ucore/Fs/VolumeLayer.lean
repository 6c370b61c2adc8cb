import Ucore.Sfs.Untouched
import Ucore.Vfs.LayerData

set_option autoImplicit false

namespace Ucore.Fs

open Ucore.Lib Ucore.Sfs Ucore.Vfs

variable {P N : Type} {n : Nat} [DecidableEq P] [DecidableEq N]

-- Which inode is which: the devices, the regular files of the volume, and for a
-- directory its size and the code of sfs_getdirentry. typed is how many of the
-- characters asked for arrive at stdin.
structure Nodes (N : Type) (n : Nat) where
  device : N → Vfs.Device
  file : N → Fin n
  dirSize : N → Int
  dirEntry : N → Int → Int
  typed : Nat → Nat

def onFile (vol : Volume n) (file : Fin n) (call : FileCall) : Except Sfs.Fault (Reply × Volume n) := do
  let (reply, sfs, sin) ← call.run vol.sfs (vol.files file)
  return (reply, vol.after file sfs sin)

-- disk0_io writes whole blocks.
def writeBlocks (vol : Volume n) (buf : Bytes) (pos : Int) (len : Nat) : Volume n :=
  let blkno := pos.toNat / 4096
  { vol with sfs := { vol.sfs with dev := { vol.sfs.dev with
      data := fun b => if blkno ≤ b ∧ b < blkno + len / 4096 then buf.from ((b - blkno) * 4096) else vol.sfs.dev.data b } } }

def deviceIo (nodes : Nodes N n) (vol : Volume n) (node : N) (buf : Bytes) (pos : Int) (len : Nat) (write : Bool) : Int × Int × Volume n :=
  match nodes.device node with
  | .stdin => (min (nodes.typed len) len, min (nodes.typed len) len, vol)
  | .stdout => (0, len, vol)
  | .disk0 _ => (0, len, if write then writeBlocks vol buf pos len else vol)

-- The operations of a volume. A directory's inode is never dirty, and a file has
-- links: nothing removes one, and sfs_load_inode asserts that there are some.
def volumeBelow (v : Mounts N) (nodes : Nodes N n) : Below N (Volume n) Sfs.Fault where
  device := nodes.device
  io := fun vol node buf pos len write =>
    if v.kind node = .file then (onFile vol (nodes.file node) (.io buf pos len write)).map fun (reply, vol) => (reply.ret, (reply.alen : Int), vol)
    else .ok (deviceIo nodes vol node buf pos len write)
  size := fun vol node => if v.kind node = .file then ((vol.files (nodes.file node)).din.size : Int) else nodes.dirSize node
  tryseek := fun vol node pos => (onFile vol (nodes.file node) (.tryseek pos)).map fun (reply, vol) => (reply.ret, vol)
  truncate := fun vol node len => (onFile vol (nodes.file node) (.truncfile len)).map fun (reply, vol) => (reply.ret, vol)
  fsync := fun vol node => if v.kind node = .file then vol.fsync (nodes.file node) else .ok (0, vol)
  getdirentry := fun vol node offset => .ok (nodes.dirEntry node offset, vol)
  reclaim := fun vol node => if v.kind node = .file then (vol.fsync (nodes.file node)).map Prod.snd else .ok vol

theorem on_file_step (vol next : Volume n) (file : Fin n) (call : FileCall) (reply : Reply)
    (ran : onFile vol file call = .ok (reply, next)) : vol.step (file, call) = some next := by
  obtain ⟨⟨answer, sfs, sin⟩, runs, ran⟩ := bind_ok ran
  simp only [pure_ok, Except.ok.injEq, Prod.mk.injEq] at ran
  obtain ⟨rfl, rfl⟩ := ran
  simp [Volume.step, runs, Except.toOption, Volume.after]

-- What the volume keeps when the files of a set are spared: their records and bytes,
-- and the freemap when that is all files.
def Spares (reserved : Nat → Prop) (spared : Fin n → Prop) (vol next : Volume n) : Prop :=
  vol.Laid reserved → (∀ file, spared file → vol.CoveredAt file) →
    next.Laid reserved ∧ (∀ file, spared file → vol.Keeps next file) ∧ ((∀ file, spared file) → next.sfs.freemap = vol.sfs.freemap)

section Sparing

variable (reserved : Nat → Prop) (spared : Fin n → Prop)

theorem keeps_covered (vol next : Volume n) (file : Fin n) (keeps : vol.Keeps next file) (covered : vol.CoveredAt file) :
    next.CoveredAt file := by
  unfold Volume.CoveredAt at covered ⊢
  rw [keeps.din]
  exact covered

theorem spares_refl (vol : Volume n) : Spares reserved spared vol vol := fun laid _ => ⟨laid, fun file _ => keeps_refl vol file, fun _ => rfl⟩

theorem spares_trans (first second third : Volume n) (left : Spares reserved spared first second) (right : Spares reserved spared second third) :
    Spares reserved spared first third := by
  intro laid covered
  obtain ⟨laidMid, keepsMid, freemapMid⟩ := left laid covered
  obtain ⟨laidEnd, keepsEnd, freemapEnd⟩ := right laidMid fun file member => keeps_covered first second file (keepsMid file member) (covered file member)
  exact ⟨laidEnd, fun file member => keeps_trans first second third file (keepsMid file member) (keepsEnd file member),
    fun all => (freemapEnd all).trans (freemapMid all)⟩

theorem stored_spares (vol next : Volume n) (stored : vol.Laid reserved → vol.Stored next reserved) : Spares reserved spared vol next := by
  intro laid covered
  have kept := stored laid
  exact ⟨stored_laid vol next reserved laid kept, fun file member => stored_keeps vol next reserved laid kept file (covered file member),
    fun _ => kept.freemap⟩

-- A call that leaves the length of its file alone.
def Gentle (vol : Volume n) (file : Fin n) : FileCall → Prop
  | .io _ _ _ write => write = false
  | .truncfile len => len = (vol.files file).din.size
  | .tryseek pos => pos ≤ (vol.files file).din.size ∨ (maxFileSize : Int) ≤ pos

theorem gentle_quieted (vol next : Volume n) (laid : vol.Laid reserved) (file : Fin n) (covered : vol.CoveredAt file) (call : FileCall)
    (gentle : Gentle vol file call) (stepped : vol.step (file, call) = some next) : vol.Quieted next := by
  have still : Volume.after vol file vol.sfs (vol.files file) = vol := by rw [Volume.after, Function.update_eq_self]
  cases call with
  | io buf offset resid write =>
      obtain rfl : write = false := gentle
      exact read_quieted vol reserved laid file covered buf offset resid next stepped
  | truncfile len =>
      obtain rfl : len = (vol.files file).din.size := gentle
      obtain ⟨reply, s', i', ran, rfl⟩ := step_some vol next _ stepped
      obtain ⟨⟨ret, sfs, sin⟩, truncates, ran⟩ := bind_ok ran
      simp only [pure_ok, Except.ok.injEq, Prod.mk.injEq] at ran
      obtain ⟨_, rfl, rfl⟩ := ran
      by_cases valid : 0 ≤ ((vol.files file).din.size : Int) ∧ ((vol.files file).din.size : Int) ≤ maxFileSize
      · rw [truncfile_same vol.sfs (vol.files file) _ valid rfl] at truncates
        split at truncates
        · cases truncates
          exact ⟨quiet_refl _, congrArg Volume.files still⟩
        · cases truncates
      · rw [truncfile_invalid vol.sfs (vol.files file) _ valid] at truncates
        cases truncates
        exact ⟨quiet_refl _, congrArg Volume.files still⟩
  | tryseek pos =>
      obtain ⟨reply, s', i', ran, rfl⟩ := step_some vol next _ stepped
      obtain ⟨⟨ret, sfs, sin⟩, seeks, ran⟩ := bind_ok ran
      simp only [pure_ok, Except.ok.injEq, Prod.mk.injEq] at ran
      obtain ⟨_, rfl, rfl⟩ := ran
      unfold sfsTryseek at seeks
      by_cases invalid : pos < 0 ∨ (maxFileSize : Int) ≤ pos
      · rw [if_pos invalid] at seeks
        cases seeks
        exact ⟨quiet_refl _, congrArg Volume.files still⟩
      · have inside : ¬ ((vol.files file).din.size : Int) < pos := by
          have short := gentle
          simp only [Gentle] at short
          omega
        rw [if_neg invalid, if_neg inside] at seeks
        cases seeks
        exact ⟨quiet_refl _, congrArg Volume.files still⟩

theorem call_spares (vol next : Volume n) (file : Fin n) (call : FileCall) (gentle : spared file → Gentle vol file call)
    (stepped : vol.step (file, call) = some next) : Spares reserved spared vol next := by
  intro laid covered
  by_cases member : spared file
  · have quiet := gentle_quieted reserved vol next laid file (covered file member) call (gentle member) stepped
    have stored := quieted_stored vol next reserved quiet
    exact ⟨stored_laid vol next reserved laid stored, fun other _ => quieted_keeps vol next quiet other, fun _ => stored.freemap⟩
  · refine ⟨call_laid vol next reserved file call laid stepped, fun other kept => ?_, fun all => absurd (all file) member⟩
    have apart : other ≠ file := fun same => member (same ▸ kept)
    exact other_keeps vol next reserved laid file other apart (covered other kept) call stepped

omit [DecidableEq N] in
theorem volume_related (v : Mounts N) (nodes : Nodes N n) : Related v (volumeBelow v nodes) (Spares reserved spared) where
  refl := spares_refl reserved spared
  trans := spares_trans reserved spared
  fsync := by
    intro vol node ret next _ syncs
    by_cases file : v.kind node = .file
    · simp only [volumeBelow, if_pos file] at syncs
      exact stored_spares reserved spared vol next fun laid => fsync_quiet vol next reserved laid (nodes.file node) ret syncs
    · simp only [volumeBelow, if_neg file, Except.ok.injEq, Prod.mk.injEq] at syncs
      exact syncs.2 ▸ spares_refl reserved spared vol
  reclaim := by
    intro vol node next _ reclaims
    by_cases file : v.kind node = .file
    · simp only [volumeBelow, if_pos file] at reclaims
      cases syncs : vol.fsync (nodes.file node) with
      | error fault => simp [syncs, Except.map] at reclaims
      | ok reply =>
          obtain ⟨ret, after⟩ := reply
          simp only [syncs, Except.map, Except.ok.injEq] at reclaims
          subst reclaims
          exact stored_spares reserved spared vol after fun laid => fsync_quiet vol after reserved laid (nodes.file node) ret syncs
    · simp only [volumeBelow, if_neg file, Except.ok.injEq] at reclaims
      exact reclaims ▸ spares_refl reserved spared vol
  getdirentry := by
    intro vol node offset ret next reads
    simp only [volumeBelow, Except.ok.injEq, Prod.mk.injEq] at reads
    exact reads.2 ▸ spares_refl reserved spared vol

end Sparing

end Ucore.Fs
