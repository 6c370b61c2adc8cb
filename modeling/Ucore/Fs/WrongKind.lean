import Mathlib.Data.Fintype.Basic
import Ucore.Fs.ReadOnly
import Ucore.Vfs.LayerExact

set_option autoImplicit false

namespace Ucore.Fs

open Ucore.Lib Ucore.Sfs Ucore.Vfs

variable {P N : Type} {n : Nat} [DecidableEq P]

theorem volume_clean (v : Mounts N) (nodes : Nodes N n) (vol : Volume n) (node : N) (dir : v.kind node = .dir) :
    (volumeBelow v nodes).reclaim vol node = .ok vol := by
  simp [volumeBelow, dir]

variable [DecidableEq N]

theorem layer_step_inv (v : Mounts N) (nodes : Nodes N n) (mounted : WellMounted v) (l : VolumeLayer P N n) (event : LayerCall P N)
    (next : VolumeLayer P N n) (inv : l.LayerInv v) (allowed : l.Allowed event) (fits : l.Fits v event)
    (stepped : layerStep v nodes l event = some next) : next.LayerInv v := by
  have replies := FileLayer.call_replies mounted (volume_clean v nodes) inv event allowed fits
  unfold layerStep FileLayer.step at stepped
  cases called : l.call v (volumeBelow v nodes) event with
  | error panic => simp [called] at stepped
  | ok reply =>
      simp only [called, Option.some.injEq] at stepped
      rw [called] at replies
      exact stepped ▸ replies.2

theorem handled_iff_fits (v : Mounts N) (nodes : Nodes N n) (mounted : WellMounted v) (l : VolumeLayer P N n) (event : LayerCall P N)
    (inv : l.LayerInv v) (allowed : l.Allowed event) : l.Handled v (volumeBelow v nodes) event ↔ l.Fits v event := by
  constructor
  · exact FileLayer.handled_fits mounted inv event allowed
  · intro fits
    exact ends_mono (FileLayer.call_replies mounted (volume_clean v nodes) inv event allowed fits) fun reply _ replies => replies.1

-- Every run of calls: none of them stops in the file layer, and what is not
-- supported fails and changes nothing, exactly if no call of the run asks an inode
-- for an operation that it lacks.
theorem wrong_kind_handled (v : Mounts N) (nodes : Nodes N n) (l : VolumeLayer P N n) (events : List (LayerCall P N)) (mounted : WellMounted v)
    (inv : l.LayerInv v) (allowed : Throughout (layerStep v nodes) FileLayer.Allowed l events) :
    Throughout (layerStep v nodes) (fun l event => l.Handled v (volumeBelow v nodes) event) l events ↔
      Throughout (layerStep v nodes) (fun l event => l.Fits v event) l events := by
  have both := throughout_congr (layerStep v nodes) (fun l => l.LayerInv v) FileLayer.Allowed
    (fun l event => l.Allowed event ∧ l.Handled v (volumeBelow v nodes) event) (fun l event => l.Allowed event ∧ l.Fits v event)
    (fun l event next inv met stepped =>
      layer_step_inv v nodes mounted l event next inv met.1 ((handled_iff_fits v nodes mounted l event inv met.1).mp met.2) stepped)
    (fun l event inv allowed => and_congr_right fun _ => handled_iff_fits v nodes mounted l event inv allowed) events l inv allowed
  rw [throughout_and, throughout_and] at both
  exact ⟨fun handled => (both.mp ⟨allowed, handled⟩).2, fun fits => (both.mpr ⟨allowed, fits⟩).2⟩

theorem boot_layer_inv (v : Mounts N) (init : P) (root : N) (vol : Volume n) (dir : v.kind root = .dir) :
    FileLayer.LayerInv v (⟨FsState.boot v init root, vol⟩ : VolumeLayer P N n) where
  hold := by
    refine ⟨still, fun _ => le_refl 0, ?_⟩
    have same : FileLayer.unleaked (FsState.boot v init root : FsState P N).counts still = (FsState.boot v init root : FsState P N).counts := by
      simp [FileLayer.unleaked, still]
    rw [same]
    exact FsState.boot_inv v init root
  placed := by
    intro proc member
    obtain rfl : proc = init := by simpa [FsState.boot] using member
    exact ⟨⟨root, by simp [FsState.starts, FsState.boot], dir⟩, ⟨root, by simp [FsState.starts, FsState.boot], dir⟩⟩
  modes := by
    intro proc _ file member
    exact FileLayer.idle_mode v file (created_idle N file member)

section Example

-- The root directory 0, a file 1, and the devices disk0, stdin and stdout.
def fiveNodes : Mounts (Fin 5) :=
  ⟨fun node => if node = 0 then .dir else if node = 1 then .file else .device, fun _ => 0,
    [⟨"disk0".toList, 2, some 0, true⟩, ⟨"stdin".toList, 3, none, false⟩, ⟨"stdout".toList, 4, none, false⟩]⟩

def fiveKinds : Nodes (Fin 5) 2 :=
  ⟨fun node => if node = 2 then .disk0 32 else if node = 3 then .stdin else .stdout, fun _ => 0, fun _ => 32, fun _ _ => 0, fun len => len⟩

def fiveLayer : VolumeLayer Nat (Fin 5) 2 := ⟨FsState.boot fiveNodes 0 0, twoVolume⟩

theorem five_mounted : WellMounted fiveNodes := ⟨by decide, by decide, by decide, by decide⟩

-- The operation that stops a call.
def missingOp {F α : Type} : Except (Panic F) α → Option Vop
  | .error (.missing op) => some op
  | _ => none

instance (l : VolumeLayer Nat (Fin 5) 2) (event : LayerCall Nat (Fin 5)) : Decidable (l.Allowed event) :=
  inferInstanceAs (Decidable (_ ∧ _))

instance (l : VolumeLayer Nat (Fin 5) 2) (proc : Nat) (flags : BitVec 32) (copyPath : Int) : Decidable (l.Reaches proc flags copyPath) :=
  inferInstanceAs (Decidable (_ ∧ _ ∧ _ ∧ _))

instance (l : VolumeLayer Nat (Fin 5) 2) (event : LayerCall Nat (Fin 5)) : Decidable (l.Fits fiveNodes event) := by
  cases event <;> unfold FileLayer.Fits <;> infer_instance

-- The root directory is opened, not read; the file is read, and the devices are used
-- as they allow, and as they refuse.
def wrongKindCalls : List (LayerCall Nat (Fin 5)) :=
  [.openFile 0 ['/'] oRdOnly 0 (.error 0), .getdirentry 0 0 0, .write 0 0 zeroBytes 1, .openFile 0 ['/'] oRdWr 0 (.error 0),
    .openFile 0 "stdin:".toList oRdOnly 0 (.error 0), .openFile 0 "stdin:".toList oWrOnly 0 (.error 0), .write 0 1 zeroBytes 1, .seek 0 1 0 lseekSet,
    .openFile 0 ['a'] oRdWr 0 (.ok 1), .write 0 2 zeroBytes 10, .fsync 0 2, .dup 0 2 5, .fstat 0 5, .close 0 0, .close 0 1, .close 0 2, .read 0 5 3]

theorem wrong_kind_handled_one :
    (run (layerStep fiveNodes fiveKinds) fiveLayer wrongKindCalls).isSome = true ∧
    Throughout (layerStep fiveNodes fiveKinds) (fun l event => l.Handled fiveNodes (volumeBelow fiveNodes fiveKinds) event) fiveLayer wrongKindCalls := by
  have facts : (run (layerStep fiveNodes fiveKinds) fiveLayer wrongKindCalls).isSome = true ∧
      Throughout (layerStep fiveNodes fiveKinds) FileLayer.Allowed fiveLayer wrongKindCalls ∧
      Throughout (layerStep fiveNodes fiveKinds) (fun l event => l.Fits fiveNodes event) fiveLayer wrongKindCalls := by
    decide +kernel
  obtain ⟨runs, allowed, fits⟩ := facts
  have inv : fiveLayer.LayerInv fiveNodes := boot_layer_inv fiveNodes 0 0 twoVolume rfl
  exact ⟨runs, (wrong_kind_handled fiveNodes fiveKinds fiveLayer wrongKindCalls five_mounted inv allowed).mpr fits⟩

-- Five calls that stop at a missing operation: a read and a seek of the root
-- directory, an open with O_CREAT of it and of a name that is not there, and a fsync
-- of stdin.
theorem wrong_kind_stops :
    (run (layerStep fiveNodes fiveKinds) fiveLayer [.openFile 0 ['/'] oRdOnly 0 (.error 0)]).map (fun l =>
      [missingOp (l.call fiveNodes (volumeBelow fiveNodes fiveKinds) (.read 0 0 1)),
        missingOp (l.call fiveNodes (volumeBelow fiveNodes fiveKinds) (.seek 0 0 0 lseekSet)),
        missingOp (l.call fiveNodes (volumeBelow fiveNodes fiveKinds) (.openFile 0 ['/'] oCreat 0 (.error 0))),
        missingOp (l.call fiveNodes (volumeBelow fiveNodes fiveKinds) (.openFile 0 ['b'] oCreat 0 (.error Vfs.eNoEnt)))]) =
      some [some .vopRead, some .vopTryseek, some .vopTruncate, some .vopCreate] ∧
    (run (layerStep fiveNodes fiveKinds) fiveLayer [.openFile 0 "stdin:".toList oRdOnly 0 (.error 0)]).map (fun l =>
      missingOp (l.call fiveNodes (volumeBelow fiveNodes fiveKinds) (.fsync 0 0))) = some (some .vopFsync) := by
  decide +kernel

end Example

end Ucore.Fs
