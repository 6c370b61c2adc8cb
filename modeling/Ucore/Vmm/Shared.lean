import Mathlib.Algebra.BigOperators.Fin
import Ucore.Vmm.RangeSpec

set_option autoImplicit false

namespace Ucore.Vmm

open Ucore.Lib

section Shared

variable {m : Nat}

noncomputable def countIn (pgdir : Option Pgdir) (page : Nat) : Nat := pgdir.elim 0 fun pgdir => pgdir.count page

-- How often all address spaces together map a page.
noncomputable def total (pgdirs : Fin m → Option Pgdir) (page : Nat) : Nat := ∑ i, countIn (pgdirs i) page

def IsTable (pgdirs : Fin m → Option Pgdir) (page : Nat) : Prop := ∃ i pgdir a, pgdirs i = some pgdir ∧ pgdir.pageAt a = some page

-- Address spaces over one physical memory. The pages of the kernel have
-- reference counts of their own.
structure Shared (mem : Mem) (pgdirs : Fin m → Option Pgdir) (kernel : Nat → Prop) : Prop where
  once : ∀ i j left right a b page, pgdirs i = some left → pgdirs j = some right → left.pageAt a = some page →
    right.pageAt b = some page → i = j ∧ a = b
  tables : ∀ page, IsTable pgdirs page → mem.free page = false ∧ ¬ kernel page ∧ total pgdirs page = 0
  mapped : ∀ page, 0 < total pgdirs page → mem.free page = false ∧ ¬ kernel page
  refs : ∀ page, ¬ IsTable pgdirs page → ¬ kernel page → mem.ref page = total pgdirs page
  kernelUsed : ∀ page, kernel page → mem.free page = false

-- The rest of the world, seen from one address space.
def foreignTo (pgdirs : Fin m → Option Pgdir) (kernel : Nat → Prop) (i : Fin m) (page : Nat) : Prop :=
  kernel page ∨ ∃ j pgdir a, j ≠ i ∧ pgdirs j = some pgdir ∧ pgdir.pageAt a = some page

noncomputable def outsideOf (pgdirs : Fin m → Option Pgdir) (i : Fin m) (page : Nat) : Nat :=
  ∑ j ∈ Finset.univ.erase i, countIn (pgdirs j) page

theorem total_split (pgdirs : Fin m → Option Pgdir) (i : Fin m) (page : Nat) :
    total pgdirs page = countIn (pgdirs i) page + outsideOf pgdirs i page :=
  (Finset.add_sum_erase Finset.univ _ (Finset.mem_univ i)).symm

theorem outside_update (pgdirs : Fin m → Option Pgdir) (i : Fin m) (pgdir : Option Pgdir) (page : Nat) :
    outsideOf (Function.update pgdirs i pgdir) i page = outsideOf pgdirs i page := by
  refine Finset.sum_congr rfl fun j inside => ?_
  rw [Function.update_of_ne (Finset.ne_of_mem_erase inside)]

theorem total_update (pgdirs : Fin m → Option Pgdir) (i : Fin m) (pgdir : Pgdir) (page : Nat) :
    total (Function.update pgdirs i (some pgdir)) page = pgdir.count page + outsideOf pgdirs i page := by
  rw [total_split _ i, outside_update, Function.update_self]
  rfl

theorem mapped_total (pgdirs : Fin m → Option Pgdir) (i : Fin m) (pgdir : Pgdir) (here : pgdirs i = some pgdir) (vpn : Nat)
    (small : vpn < nPages) (pte : Pte) (entry : pgdir.entry vpn = some pte) : 0 < total pgdirs pte.ppn := by
  have positive := (count_pos pgdir pte.ppn).mpr ⟨vpn, small, by simp [Pgdir.Maps, entry]⟩
  rw [total_split pgdirs i, here]
  exact Nat.lt_of_lt_of_le positive (Nat.le_add_right _ _)

variable (mem : Mem) (pgdirs : Fin m → Option Pgdir) (kernel : Nat → Prop)

theorem foreign_table (i : Fin m) (page : Nat) (foreign : foreignTo pgdirs kernel i page) : kernel page ∨ IsTable pgdirs page := by
  rcases foreign with known | ⟨j, pgdir, a, _, here, at'⟩
  · exact .inl known
  · exact .inr ⟨j, pgdir, a, here, at'⟩

theorem shared_space (shared : Shared mem pgdirs kernel) (i : Fin m) (pgdir : Pgdir) (here : pgdirs i = some pgdir) :
    Space mem pgdir (foreignTo pgdirs kernel i) (outsideOf pgdirs i) := by
  have split : ∀ page, total pgdirs page = pgdir.count page + outsideOf pgdirs i page := by
    intro page
    rw [total_split pgdirs i, here]
    rfl
  refine ⟨fun a b page atA atB => (shared.once i i pgdir pgdir a b page here here atA atB).2, fun a page at' => ?_,
    fun page positive => ?_, fun page absent away => ?_, fun page foreign => ?_, fun page some => ?_⟩
  · obtain ⟨used, own, unmapped⟩ := shared.tables page ⟨i, pgdir, a, here, at'⟩
    rw [split] at unmapped
    refine ⟨used, ?_, by omega, by omega⟩
    rintro (known | ⟨j, other, b, apart, atJ, atB⟩)
    · exact own known
    · exact apart (shared.once j i other pgdir b a page atJ here atB at').1
  · have more : 0 < total pgdirs page := by
      rw [split]
      omega
    obtain ⟨used, own⟩ := shared.mapped page more
    refine ⟨used, fun foreign => ?_⟩
    rcases foreign_table pgdirs kernel i page foreign with known | table
    · exact own known
    · have unmapped := (shared.tables page table).2.2
      omega
  · have noTable : ¬ IsTable pgdirs page := by
      rintro ⟨j, other, b, atJ, atB⟩
      by_cases same : j = i
      · subst same
        obtain rfl : pgdir = other := by simpa [here] using atJ
        exact absent b atB
      · exact away (.inr ⟨j, other, b, same, atJ, atB⟩)
    rw [shared.refs page noTable fun known => away (.inl known), split]
    exact Nat.cast_add _ _
  · rcases foreign_table pgdirs kernel i page foreign with known | table
    · exact shared.kernelUsed page known
    · exact (shared.tables page table).1
  · refine (shared.mapped page ?_).1
    rw [split]
    omega

-- What one address space does is right for all of them.
theorem space_shared (shared : Shared mem pgdirs kernel) (i : Fin m) (mem' : Mem) (pgdir' : Pgdir)
    (space : Space mem' pgdir' (foreignTo pgdirs kernel i) (outsideOf pgdirs i)) :
    Shared mem' (Function.update pgdirs i (some pgdir')) kernel := by
  have totals := total_update pgdirs i pgdir'
  have cases' : ∀ page, IsTable (Function.update pgdirs i (some pgdir')) page ↔
      (∃ a, pgdir'.pageAt a = some page) ∨ ∃ j pgdir a, j ≠ i ∧ pgdirs j = some pgdir ∧ pgdir.pageAt a = some page := by
    intro page
    constructor
    · rintro ⟨j, other, b, atJ, atB⟩
      by_cases same : j = i
      · subst same
        rw [Function.update_self] at atJ
        obtain rfl := Option.some.inj atJ
        exact .inl ⟨b, atB⟩
      · rw [Function.update_of_ne same] at atJ
        exact .inr ⟨j, other, b, same, atJ, atB⟩
    · rintro (⟨a, at'⟩ | ⟨j, other, b, apart, atJ, atB⟩)
      · exact ⟨i, pgdir', a, Function.update_self .., at'⟩
      · exact ⟨j, other, b, by rw [Function.update_of_ne apart, atJ], atB⟩
  refine ⟨fun j k left right a b page atJ atK atA atB => ?_, fun page table => ?_, fun page positive => ?_,
    fun page absent away => ?_, fun page known => space.foreignUsed page (.inl known)⟩
  · by_cases sameJ : j = i
    · by_cases sameK : k = i
      · subst sameJ sameK
        rw [Function.update_self] at atJ atK
        obtain rfl := Option.some.inj atJ
        obtain rfl := Option.some.inj atK
        exact ⟨rfl, space.once a b page atA atB⟩
      · subst sameJ
        rw [Function.update_self] at atJ
        rw [Function.update_of_ne sameK] at atK
        obtain rfl := Option.some.inj atJ
        exact absurd (.inr ⟨k, right, b, sameK, atK, atB⟩) (space.tables a page atA).2.1
    · rw [Function.update_of_ne sameJ] at atJ
      by_cases sameK : k = i
      · subst sameK
        rw [Function.update_self] at atK
        obtain rfl := Option.some.inj atK
        exact absurd (.inr ⟨j, left, a, sameJ, atJ, atA⟩) (space.tables b page atB).2.1
      · rw [Function.update_of_ne sameK] at atK
        exact shared.once j k left right a b page atJ atK atA atB
  · rw [totals]
    rcases (cases' page).mp table with ⟨a, at'⟩ | other
    · obtain ⟨used, own, clear, unmapped⟩ := space.tables a page at'
      exact ⟨used, fun known => own (.inl known), by omega⟩
    · obtain ⟨j, pgdir, a, apart, atJ, atA⟩ := other
      obtain ⟨_, own, unmapped⟩ := shared.tables page ⟨j, pgdir, a, atJ, atA⟩
      rw [total_split pgdirs i] at unmapped
      refine ⟨space.foreignUsed page (.inr ⟨j, pgdir, a, apart, atJ, atA⟩), own, ?_⟩
      have here : pgdir'.count page = 0 := by
        by_contra some
        exact (space.mapped page (Nat.pos_of_ne_zero some)).2 (.inr ⟨j, pgdir, a, apart, atJ, atA⟩)
      omega
  · rw [totals] at positive
    by_cases here : 0 < pgdir'.count page
    · obtain ⟨used, own⟩ := space.mapped page here
      exact ⟨used, fun known => own (.inl known)⟩
    · have elsewhere : 0 < outsideOf pgdirs i page := by omega
      refine ⟨space.outsideUsed page elsewhere, (shared.mapped page ?_).2⟩
      rw [total_split pgdirs i]
      omega
  · rw [totals]
    refine space.refs page (fun a at' => absent ((cases' page).mpr (.inl ⟨a, at'⟩))) ?_
    rintro (known | other)
    · exact away known
    · exact absent ((cases' page).mpr (.inr other))

theorem boot_shared (boot : ∀ page, mem.free page = true → mem.ref page = 0) :
    Shared mem (fun _ : Fin m => none) (fun page => mem.free page = false) := by
  have none' : ∀ page, total (fun _ : Fin m => none) page = 0 := fun page => Finset.sum_eq_zero fun _ _ => rfl
  refine ⟨fun i j left right a b page atI => (by simp at atI), fun page table => ?_, fun page positive => ?_, fun page _ own => ?_,
    fun page known => known⟩
  · obtain ⟨i, pgdir, a, atI, _⟩ := table
    simp at atI
  · have zero := none' page
    omega
  · rw [none', boot page (by simpa using own)]
    rfl

-- A new root without entries.
theorem create_space (shared : Shared mem pgdirs kernel) (i : Fin m) (vacant : pgdirs i = none) (page : Nat) (mem' : Mem)
    (got : mem.allocPage = some (page, mem')) :
    Space mem' ⟨page, fun _ => none⟩ (foreignTo pgdirs kernel i) (outsideOf pgdirs i) := by
  obtain ⟨free, rfl⟩ := alloc_page_spec mem mem' page got
  have totals : ∀ other, total pgdirs other = outsideOf pgdirs i other := by
    intro other
    rw [total_split pgdirs i, vacant]
    exact Nat.zero_add _
  have root : ∀ a other, (Pgdir.mk page fun _ => none).pageAt a = some other → a = .root ∧ other = page := by
    intro a other at'
    cases a with
    | root => exact ⟨rfl, (Option.some.inj at').symm⟩
    | dir d1 => simp [Pgdir.pageAt] at at'
    | table d1 d0 => simp [Pgdir.pageAt] at at'
  have unmapped : ∀ other, (Pgdir.mk page fun _ => none).count other = 0 := by
    intro other
    by_contra some
    obtain ⟨vpn, _, maps⟩ := (count_pos _ other).mp (Nat.pos_of_ne_zero some)
    simp [Pgdir.Maps, Pgdir.entry, Pgdir.lookup] at maps
  have keep : ∀ other, mem.free other = false → Function.update mem.free page false other = false := by
    intro other used
    by_cases same : other = page
    · simp [same]
    · simp [same, used]
  have notUsed : mem.free page ≠ false := by simp [free]
  refine ⟨fun a b other atA atB => ?_, fun a other at' => ?_, fun other positive => ?_, fun other absent away => ?_,
    fun other foreign => ?_, fun other some => ?_⟩
  · rw [(root a other atA).1, (root b other atB).1]
  · obtain ⟨_, rfl⟩ := root a other at'
    refine ⟨by simp, fun foreign => ?_, ?_, unmapped other⟩
    · rcases foreign_table pgdirs kernel i other foreign with known | table
      · exact notUsed (shared.kernelUsed other known)
      · exact notUsed (shared.tables other table).1
    · rw [← totals]
      by_contra some
      exact notUsed (shared.mapped other (Nat.pos_of_ne_zero some)).1
  · have zero := unmapped other
    omega
  · have noTable : ¬ IsTable pgdirs other := by
      rintro ⟨j, pgdir, a, atJ, atA⟩
      have apart : j ≠ i := by
        rintro rfl
        rw [vacant] at atJ
        cases atJ
      exact away (.inr ⟨j, pgdir, a, apart, atJ, atA⟩)
    rw [unmapped]
    simpa [totals] using shared.refs other noTable fun known => away (.inl known)
  · rcases foreign_table pgdirs kernel i other foreign with known | table
    · exact keep other (shared.kernelUsed other known)
    · exact keep other (shared.tables other table).1
  · rw [← totals] at some
    exact keep other (shared.mapped other some).1

end Shared

end Ucore.Vmm
