import Ucore.Fs.VolumeLayer
import Ucore.Sfs.Remount
import Ucore.Vfs.RefAccount

set_option autoImplicit false

namespace Ucore.Fs

open Ucore.Lib Ucore.Sfs Ucore.Vfs

variable {P N : Type} {n : Nat} [DecidableEq P] [DecidableEq N]

abbrev VolumeLayer (P N : Type) (n : Nat) := FileLayer P N (Volume n)

def layerStep (v : Mounts N) (nodes : Nodes N n) (l : VolumeLayer P N n) (event : LayerCall P N) : Option (VolumeLayer P N n) :=
  l.step v (volumeBelow v nodes) event

-- The calls ask for no write access to the files of a set: an open of one of them
-- has O_RDONLY and no O_TRUNC, and file_write is called only where it refuses.
def ReadOnly (v : Mounts N) (nodes : Nodes N n) (spared : Fin n → Prop) (l : VolumeLayer P N n) : LayerCall P N → Prop
  | .openFile proc path flags _ lookup => ∀ node ∈ l.found v proc path lookup, v.kind node = .file → spared (nodes.file node) →
      flags &&& oAccMode = oRdOnly ∧ has flags oTrunc = false
  | .write proc fd _ _ => ∀ entry ∈ l.held proc fd, entry.1.writable = false
  | _ => True

-- The position of a file_seek with one of the three values of whence.
def seekPos (pos whence filePos size : Int) : Option Int :=
  if whence = lseekSet then some pos
  else if whence = lseekCur then some (pos + filePos)
  else if whence = lseekEnd then some (pos + size) else none

-- The calls that vop_tryseek and vfs_open would turn into a change of the length are
-- left out: a seek past the end below the largest file size, and an open with
-- O_CREAT, without O_EXCL, of a file that is not empty.
def LeavesSize (v : Mounts N) (nodes : Nodes N n) (spared : Fin n → Prop) (l : VolumeLayer P N n) : LayerCall P N → Prop
  | .openFile proc path flags _ lookup => ∀ node ∈ l.found v proc path lookup, v.kind node = .file → spared (nodes.file node) →
      has flags oCreat = true → has flags oExcl = true ∨ (l.data.files (nodes.file node)).din.size = 0
  | .seek proc fd pos whence => ∀ entry ∈ l.held proc fd, v.kind entry.2 = .file → spared (nodes.file entry.2) →
      ∀ target ∈ seekPos pos whence entry.1.pos (l.data.files (nodes.file entry.2)).din.size,
        target ≤ (l.data.files (nodes.file entry.2)).din.size ∨ (maxFileSize : Int) ≤ target
  | _ => True

instance (v : Mounts N) (nodes : Nodes N n) (spared : Fin n → Prop) [DecidablePred spared] (l : VolumeLayer P N n) (event : LayerCall P N) :
    Decidable (ReadOnly v nodes spared l event) := by
  cases event <;> unfold ReadOnly <;> infer_instance

instance (v : Mounts N) (nodes : Nodes N n) (spared : Fin n → Prop) [DecidablePred spared] (l : VolumeLayer P N n) (event : LayerCall P N) :
    Decidable (LeavesSize v nodes spared l event) := by
  cases event <;> unfold LeavesSize <;> infer_instance

section Calls

variable (v : Mounts N) (nodes : Nodes N n) (reserved : Nat → Prop) (spared : Fin n → Prop) (l : VolumeLayer P N n)

theorem on_file_spares (vol next : Volume n) (file : Fin n) (call : FileCall) (gentle : spared file → Gentle vol file call) (reply : Reply)
    (ran : onFile vol file call = .ok (reply, next)) : Spares reserved spared vol next :=
  call_spares reserved spared vol next file call gentle (on_file_step vol next file call reply ran)

theorem on_file_map {α : Type} (vol : Volume n) (file : Fin n) (call : FileCall) (answer : Reply × Volume n → α) (result : α)
    (ran : (onFile vol file call).map answer = .ok result) : ∃ reply next, onFile vol file call = .ok (reply, next) ∧ answer (reply, next) = result := by
  cases runs : onFile vol file call with
  | error fault => simp [runs, Except.map] at ran
  | ok pair =>
      obtain ⟨reply, next⟩ := pair
      simp only [runs, Except.map, Except.ok.injEq] at ran
      exact ⟨reply, next, rfl, ran⟩

-- A read, and a device that is read.
omit [DecidableEq N] in
theorem io_spares (vol next : Volume n) (node : N) (buf : Bytes) (pos : Int) (len : Nat) (ret moved : Int)
    (reads : (volumeBelow v nodes).io vol node buf pos len false = .ok (ret, moved, next)) : Spares reserved spared vol next := by
  by_cases file : v.kind node = .file
  · simp only [volumeBelow, if_pos file] at reads
    obtain ⟨reply, after, ran, same⟩ := on_file_map vol _ _ _ _ reads
    simp only [Prod.mk.injEq] at same
    exact same.2.2 ▸ on_file_spares reserved spared vol after (nodes.file node) (.io buf pos len false) (fun _ => rfl) reply ran
  · simp only [volumeBelow, if_neg file, Except.ok.injEq] at reads
    have same : vol = next := by
      have third := congrArg (fun reply => reply.2.2) reads
      cases device : nodes.device node <;> simpa [deviceIo, device] using third
    exact same ▸ spares_refl reserved spared vol

omit [DecidableEq P] [DecidableEq N] in
theorem seek_target_pos (file : File N) (node : N) (pos whence target : Int) (regular : v.kind node = .file)
    (targets : l.seekTarget v (volumeBelow v nodes) file node pos whence = .ok (.ok target)) :
    seekPos pos whence file.pos (l.data.files (nodes.file node)).din.size = some target := by
  unfold FileLayer.seekTarget at targets
  unfold seekPos
  by_cases set : whence = lseekSet
  · simp only [if_pos set, Except.ok.injEq] at targets ⊢
    exact congrArg some targets
  · by_cases cur : whence = lseekCur
    · simp only [if_neg set, if_pos cur, Except.ok.injEq] at targets ⊢
      exact congrArg some targets
    · by_cases last : whence = lseekEnd
      · simp only [if_neg set, if_neg cur, if_pos last] at targets ⊢
        obtain ⟨size, stats, targets⟩ := bind_ok targets
        obtain ⟨_, _, stats⟩ := bind_ok stats
        simp only [regular, reduceCtorEq, if_false, volumeBelow, if_true, pure_ok, Except.ok.injEq] at stats
        simp only [pure_ok, Except.ok.injEq] at targets
        rw [← targets, ← stats]
      · simp [if_neg set, if_neg cur, if_neg last] at targets

theorem layer_spares (event : LayerCall P N) (ret : Int) (next : VolumeLayer P N n) (readOnly : ReadOnly v nodes spared l event)
    (leaves : LeavesSize v nodes spared l event) (returns : l.call v (volumeBelow v nodes) event = .ok (ret, next)) :
    Spares reserved spared l.data next.data := by
  have related := volume_related reserved spared v nodes
  cases event with
  | openFile proc path flags copyPath lookup =>
      refine l.open_related next proc ret related path flags copyPath lookup ?_ returns
      intro node found cuts exclusive _ file code after truncates
      obtain ⟨reply, vol, ran, same⟩ := on_file_map l.data _ _ _ _ truncates
      simp only [Prod.mk.injEq] at same
      refine same.2 ▸ on_file_spares reserved spared l.data vol (nodes.file node) _ (fun member => ?_) reply ran
      have creates : has flags oCreat = true := cuts.resolve_left (by simp [(readOnly node found file member).2])
      rcases leaves node found file member creates with excl | empty
      · exact absurd ⟨excl, creates⟩ exclusive
      · simp [Gentle, empty]
  | read proc fd len =>
      refine l.io_related next proc ret related fd zeroBytes len false ?_ returns
      exact fun file node _ _ code moved after reads => io_spares v nodes reserved spared l.data after node _ _ _ code moved reads
  | write proc fd buf len =>
      refine l.io_related next proc ret related fd buf len true ?_ returns
      intro file node there writable
      have refused : file.writable = false := readOnly (file, node) there
      exact absurd (refused.symm.trans writable) (by decide)
  | seek proc fd pos whence =>
      refine l.seek_related next proc ret related fd pos whence ?_ returns
      intro file node target there regular targets code after seeks
      obtain ⟨reply, vol, ran, same⟩ := on_file_map l.data _ _ _ _ seeks
      simp only [Prod.mk.injEq] at same
      refine same.2 ▸ on_file_spares reserved spared l.data vol (nodes.file node) _ (fun member => ?_) reply ran
      exact leaves (file, node) there regular member target (seek_target_pos v nodes l file node pos whence target regular targets)
  | fstat proc fd => exact l.fstat_related next proc ret related fd returns
  | fsync proc fd => exact l.fsync_related next proc ret related fd returns
  | getdirentry proc fd offset => exact l.getdirentry_related next proc ret related fd offset returns
  | dup proc fd1 fd2 => exact l.dup_data next proc ret fd1 fd2 returns ▸ spares_refl reserved spared l.data
  | close proc fd => exact l.close_related next proc ret related fd returns

end Calls

section Example

-- The files 1 and 2 in the root directory 0.
def twoFiles : Mounts Nat := ⟨fun node => if node = 0 then .dir else if node = 9 then .device else .file, fun _ => 0, [⟨['d'], 9, some 0, true⟩]⟩

def twoNodes : Nodes Nat 2 := ⟨fun _ => .stdin, fun node => if node = 1 then 0 else 1, fun _ => 0, fun _ _ => Vfs.eNoEnt, fun len => len⟩

-- File 1 has 5000 bytes and file 2 is empty.
def twoVolume : Volume 2 := ((freshVolume 2).step (0, .truncfile 5000)).getD (freshVolume 2)

theorem two_laid : twoVolume.Laid (freshReserved 2) := by
  unfold twoVolume
  have fresh := fresh_laid 2 (by decide)
  cases stepped : (freshVolume 2).step (0, .truncfile 5000) with
  | none => exact fresh
  | some vol => exact call_laid (freshVolume 2) vol (freshReserved 2) 0 (.truncfile 5000) fresh stepped

def twoLayer : VolumeLayer Nat Nat 2 := ⟨FsState.boot twoFiles 0 0, twoVolume⟩

-- File 1 is read, sought up to its end and past the largest size; file 2 grows.
def readingCalls : List (LayerCall Nat Nat) :=
  [.openFile 0 ['a'] oRdOnly 0 (.ok 1), .openFile 0 ['b'] oRdWr 0 (.ok 2), .read 0 0 9000, .seek 0 0 0 lseekEnd, .seek 0 0 200000000 lseekSet,
    .seek 0 1 9000 lseekSet, .dup 0 0 5, .fstat 0 5, .write 0 5 zeroBytes 10, .fsync 0 0, .close 0 0, .read 0 5 1, .close 0 5]

end Example

end Ucore.Fs
