import Ucore.Lib.Run
import Ucore.Vmm.SpaceStep

set_option autoImplicit false

namespace Ucore.Vmm

open Ucore.Lib

-- Address spaces with their areas over one memory.
structure Spaces (m : Nat) where
  mem : Mem
  mms : Fin m → Option Mm

-- share is page_insert of a page that another space maps. Pages are mapped
-- inside the areas only, and an address space is not copied into itself.
inductive SpaceCall (m : Nat) where
  | create (i : Fin m)
  | map (i : Fin m) (addr len vmFlags : Nat)
  | alloc (i : Fin m) (la perm : Nat)
  | share (i : Fin m) (la perm : Nat) (j : Fin m) (lb : Nat)
  | dup (i j : Fin m)

def Mm.HasArea (mm : Mm) (addr : Nat) : Prop := ∃ vma ∈ mm.mmapList, vma.Has addr

instance (mm : Mm) (addr : Nat) : Decidable (mm.HasArea addr) := inferInstanceAs (Decidable (∃ vma ∈ mm.mmapList, vma.Has addr))

namespace Spaces

variable {m : Nat}

def boot (mem : Mem) : Spaces m := ⟨mem, fun _ => none⟩

def setMm (spaces : Spaces m) (i : Fin m) (mem : Mem) (mm : Mm) : Spaces m := ⟨mem, Function.update spaces.mms i (some mm)⟩

def pgdirs (spaces : Spaces m) : Fin m → Option Pgdir := fun i => (spaces.mms i).map Mm.pgdir

def call (spaces : Spaces m) : SpaceCall m → Except Fault (Spaces m)
  | .create i =>
      match spaces.mms i, mmCreate spaces.mem with
      | none, some (mm, mem) => .ok (spaces.setMm i mem mm)
      | _, _ => .ok spaces
  | .map i addr len vmFlags =>
      match spaces.mms i with
      | some mm => do
          let (_, mm) ← mmMap mm addr len vmFlags
          return spaces.setMm i spaces.mem mm
      | none => .ok spaces
  | .alloc i la perm =>
      match spaces.mms i with
      | some mm =>
          if mm.HasArea la then do
            let (_, mem, pgdir) ← pgdirAllocPage spaces.mem mm.pgdir la perm
            return spaces.setMm i mem { mm with pgdir := pgdir }
          else .ok spaces
      | none => .ok spaces
  | .share i la perm j lb =>
      match spaces.mms i, (spaces.pgdirs j).bind fun pgdir => (pgdir.lookup lb).join with
      | some mm, some pte =>
          if mm.HasArea la ∧ lb < userTop then do
            let (_, mem, pgdir) ← pageInsert spaces.mem mm.pgdir pte.ppn la perm
            return spaces.setMm i mem { mm with pgdir := pgdir }
          else .ok spaces
      | _, _ => .ok spaces
  | .dup i j =>
      match spaces.mms i, spaces.mms j with
      | some target, some source =>
          if i ≠ j then do
            let (_, mem, target) ← dupMmap spaces.mem target source
            return spaces.setMm i mem target
          else .ok spaces
      | _, _ => .ok spaces

-- A run ends at an assertion that fails.
def step (spaces : Spaces m) (spaceCall : SpaceCall m) : Option (Spaces m) :=
  match spaces.call spaceCall with
  | .ok next => some next
  | .error _ => none

end Spaces

def Vma.Fits (vma : Vma) : Prop := vma.vmStart % pgSize = 0 ∧ vma.vmEnd % pgSize = 0 ∧ UserAccess vma.vmStart vma.vmEnd

-- The areas of an address space: ascending, disjoint, of whole user pages.
structure Areas (list : List Vma) : Prop where
  apart : list.Pairwise fun left right => left.vmEnd ≤ right.vmStart
  fits : ∀ vma ∈ list, vma.Fits

-- No page is mapped outside the areas.
def Mm.Covered (mm : Mm) : Prop := ∀ vpn, vpn < nPages → mm.pgdir.entry vpn ≠ none → mm.HasArea (vpn * pgSize)

structure Spaces.Inv {m : Nat} (kernel : Nat → Prop) (spaces : Spaces m) : Prop where
  shared : Shared spaces.mem spaces.pgdirs kernel
  areas : ∀ i mm, spaces.mms i = some mm → Areas mm.mmapList
  covered : ∀ i mm, spaces.mms i = some mm → mm.Covered

theorem check_vma_overlap_ok (prev next : Vma) (ran : checkVmaOverlap prev next = .ok ()) : prev.vmEnd ≤ next.vmStart := by
  by_contra overlap
  unfold checkVmaOverlap at ran
  by_cases first : prev.vmStart < prev.vmEnd
  · simp [first, overlap] at ran
  · simp [first] at ran

theorem areas_before (before : List Vma) (areas : Areas before) (bound : Nat)
    (last : ∀ vma, before.getLast? = some vma → vma.vmEnd ≤ bound) : ∀ vma ∈ before, vma.vmEnd ≤ bound := by
  induction before with
  | nil => intro vma inside; cases inside
  | cons head rest ih =>
      obtain ⟨above, apart⟩ := List.pairwise_cons.mp areas.apart
      have areasRest : Areas rest := ⟨apart, fun vma inside => areas.fits vma (by simp [inside])⟩
      cases rest with
      | nil =>
          intro vma inside
          obtain rfl : vma = head := by simpa using inside
          exact last vma rfl
      | cons next others =>
          have later := ih areasRest fun vma found => last vma (by simpa using found)
          intro vma inside
          rcases List.mem_cons.mp inside with rfl | tail
          · have order := above next (by simp)
            have nextUser := (areas.fits next (by simp)).2.2.2.1
            exact Nat.le_trans (Nat.le_trans order nextUser.le) (later next (by simp))
          · exact later vma tail

theorem areas_after (after : List Vma) (areas : Areas after) (bound : Nat)
    (first : ∀ vma, after.head? = some vma → bound ≤ vma.vmStart) : ∀ vma ∈ after, bound ≤ vma.vmStart := by
  cases after with
  | nil => intro vma inside; cases inside
  | cons head rest =>
      obtain ⟨above, _⟩ := List.pairwise_cons.mp areas.apart
      intro vma inside
      rcases List.mem_cons.mp inside with rfl | tail
      · exact first vma rfl
      · have order := above vma tail
        have headUser := (areas.fits head (by simp)).2.2.2.1
        exact Nat.le_trans (first head rfl) (Nat.le_trans headUser.le order)

theorem insert_vma_spec (mm mm' : Mm) (vma : Vma) (areas : Areas mm.mmapList) (fits : vma.Fits)
    (ran : insertVmaStruct mm vma = .ok mm') : Areas mm'.mmapList ∧ mm'.pgdir = mm.pgdir ∧
      ∀ other, other ∈ mm'.mmapList ↔ other = vma ∨ other ∈ mm.mmapList := by
  unfold insertVmaStruct at ran
  have order : vma.vmStart < vma.vmEnd := fits.2.2.2.1
  simp only [order, decide_true, check_true, ok_bind] at ran
  generalize shapeBefore : mm.mmapList.takeWhile (fun prev => !(vma.vmStart < prev.vmStart : Bool)) = before at ran
  generalize shapeAfter : mm.mmapList.dropWhile (fun prev => !(vma.vmStart < prev.vmStart : Bool)) = after at ran
  have whole : mm.mmapList = before ++ after := by rw [← shapeBefore, ← shapeAfter, List.takeWhile_append_dropWhile]
  rw [whole] at areas
  obtain ⟨apartBefore, apartAfter, across⟩ := List.pairwise_append.mp areas.apart
  have areasBefore : Areas before := ⟨apartBefore, fun other inside => areas.fits other (by simp [inside])⟩
  have areasAfter : Areas after := ⟨apartAfter, fun other inside => areas.fits other (by simp [inside])⟩
  cases checkedBefore : checkNeighbours before.getLast? (some vma) with
  | error fault => simp [checkedBefore] at ran
  | ok done =>
      cases checkedAfter : checkNeighbours (some vma) after.head? with
      | error fault => simp [checkedBefore, checkedAfter] at ran
      | ok done =>
          simp only [checkedBefore, checkedAfter, ok_bind, pure_ok, Except.ok.injEq] at ran
          subst ran
          have below := areas_before before areasBefore vma.vmStart fun prev found => by
            rw [found] at checkedBefore
            exact check_vma_overlap_ok prev vma checkedBefore
          have above := areas_after after areasAfter vma.vmEnd fun next found => by
            rw [found] at checkedAfter
            exact check_vma_overlap_ok vma next checkedAfter
          refine ⟨⟨?_, fun other inside => ?_⟩, rfl, fun other => ?_⟩
          · refine List.pairwise_append.mpr ⟨apartBefore, List.pairwise_cons.mpr ⟨above, apartAfter⟩, fun left inside right there => ?_⟩
            rcases List.mem_cons.mp there with rfl | later
            · exact below left inside
            · exact across left inside right later
          · rcases List.mem_append.mp inside with early | late
            · exact areasBefore.fits other early
            · rcases List.mem_cons.mp late with rfl | later
              · exact fits
              · exact areasAfter.fits other later
          · rw [whole]
            simp only [List.mem_append, List.mem_cons]
            tauto

end Ucore.Vmm
