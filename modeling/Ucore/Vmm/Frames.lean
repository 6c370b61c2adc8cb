import Ucore.Lib.Run
import Ucore.Vmm.SpaceStep

set_option autoImplicit false

namespace Ucore.Vmm

open Ucore.Lib

-- Page tables over one memory. A held frame is one that alloc_page gave and
-- that no entry maps yet.
structure Frames (m : Nat) where
  mem : Mem
  pgdirs : Fin m → Option Pgdir
  held : List Nat

-- share is page_insert of the frame that another entry maps already; copyPage is
-- one round of the loop of copy_range.
inductive Round (m : Nat) where
  | create (i : Fin m)
  | obtain
  | insert (i : Fin m) (page la perm : Nat)
  | share (i : Fin m) (la perm : Nat) (j : Fin m) (lb : Nat)
  | remove (i : Fin m) (la : Nat)
  | alloc (i : Fin m) (la perm : Nat)
  | copyPage (i j : Fin m) (vpn : Nat)

inductive FrameCall (m : Nat) where
  | one (round : Round m)
  | unmap (i : Fin m) (start stop : Nat)
  | copy (i j : Fin m) (start stop : Nat)

def FrameCall.rounds {m : Nat} : FrameCall m → List (Round m)
  | .one round => [round]
  | .unmap i start stop => (pagesBetween start stop).map fun vpn => .remove i (vpn * pgSize)
  | .copy i j start stop => (pagesBetween start stop).map fun vpn => .copyPage i j vpn

namespace Frames

variable {m : Nat}

def boot (mem : Mem) : Frames m := ⟨mem, fun _ => none, []⟩

def onSpace (frames : Frames m) (i : Fin m) (call : Mem → Pgdir → Except Fault (Int × Mem × Pgdir)) : Except Fault (Int × Frames m) :=
  match frames.pgdirs i with
  | none => .ok (eInval, frames)
  | some pgdir => do
      let (ret, mem, pgdir) ← call frames.mem pgdir
      return (ret, { frames with mem := mem, pgdirs := Function.update frames.pgdirs i (some pgdir) })

-- A call with arguments that no caller may give answers -E_INVAL here.
def roundCall (frames : Frames m) : Round m → Except Fault (Int × Frames m)
  | .create i =>
      if (frames.pgdirs i).isSome then .ok (eInval, frames)
      else
        match frames.mem.allocPage with
        | none => .ok (eNoMem, frames)
        | some (page, mem) =>
            .ok (0, { frames with mem := mem, pgdirs := Function.update frames.pgdirs i (some ⟨page, fun _ => none⟩) })
  | .obtain =>
      match frames.mem.allocPage with
      | none => .ok (eNoMem, frames)
      | some (page, mem) => .ok (0, { frames with mem := mem, held := page :: frames.held })
  | .insert i page la perm =>
      if page ∈ frames.held ∧ la < userTop then do
        let (ret, frames) ← frames.onSpace i fun mem pgdir => pageInsert mem pgdir page la perm
        return (ret, if ret = 0 then { frames with held := frames.held.filter fun other => other ≠ page } else frames)
      else .ok (eInval, frames)
  | .share i la perm j lb =>
      match (frames.pgdirs j).bind fun pgdir => (pgdir.lookup lb).join with
      | some pte =>
          if la < userTop ∧ lb < userTop then frames.onSpace i fun mem pgdir => pageInsert mem pgdir pte.ppn la perm
          else .ok (eInval, frames)
      | none => .ok (eInval, frames)
  | .remove i la =>
      if la < userTop then frames.onSpace i fun mem pgdir => do
        let (mem, pgdir) ← pageRemovePte mem pgdir la
        return (0, mem, pgdir)
      else .ok (eInval, frames)
  | .alloc i la perm =>
      if la < userTop then frames.onSpace i fun mem pgdir => do
        let (page, mem, pgdir) ← pgdirAllocPage mem pgdir la perm
        return (if page.isSome then 0 else eNoMem, mem, pgdir)
      else .ok (eInval, frames)
  | .copyPage i j vpn =>
      match frames.pgdirs j with
      | some source =>
          if i ≠ j ∧ vpn * pgSize < userTop then frames.onSpace i fun mem pgdir => copyPage mem pgdir source (vpn * pgSize)
          else .ok (eInval, frames)
      | none => .ok (eInval, frames)

def call (frames : Frames m) : FrameCall m → Except Fault (Int × Frames m)
  | .one round => frames.roundCall round
  | .unmap i start stop =>
      frames.onSpace i fun mem pgdir => do
        let (mem, pgdir) ← unmapRange mem pgdir start stop
        return (0, mem, pgdir)
  | .copy i j start stop =>
      match frames.pgdirs j with
      | some source => if i ≠ j then frames.onSpace i fun mem pgdir => copyRange mem pgdir source start stop else .ok (eInval, frames)
      | none => .ok (eInval, frames)

-- A run goes on after calls that succeed, with every allocation granted.
def succeeded : Except Fault (Int × Frames m) → Option (Frames m)
  | .ok (ret, frames) => if ret = 0 then some frames else none
  | .error _ => none

def roundStep (frames : Frames m) (round : Round m) : Option (Frames m) := succeeded (frames.roundCall round)

def step (frames : Frames m) (frameCall : FrameCall m) : Option (Frames m) := succeeded (frames.call frameCall)

structure Inv (kernel : Nat → Prop) (frames : Frames m) : Prop where
  shared : Shared frames.mem frames.pgdirs kernel
  held : ∀ page ∈ frames.held,
    frames.mem.free page = false ∧ ¬ kernel page ∧ ¬ IsTable frames.pgdirs page ∧ total frames.pgdirs page = 0

end Frames

end Ucore.Vmm
