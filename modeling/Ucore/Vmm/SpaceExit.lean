import Ucore.Vmm.SpacesInv
import Ucore.Vmm.Teardown

set_option autoImplicit false

namespace Ucore.Vmm

open Ucore.Lib

theorem table_entry (pgdir : Pgdir) (d1 d0 ix : Fin 512) (dir : PageDir) (table : PageTable) (atDir : pgdir.entries d1 = some dir)
    (atTable : dir.entries d0 = some table) : ∃ vpn, vpn < nPages ∧ pgdir.entry vpn = table.entries ix := by
  refine ⟨d1 * 262144 + d0 * 512 + ix, ?_, ?_⟩
  · have b1 := d1.isLt
    have b0 := d0.isLt
    have b := ix.isLt
    simp only [nPages]
    omega
  · have one : pdx1 ((d1 * 262144 + d0 * 512 + ix) * pgSize) = d1 := by
      have b0 := d0.isLt
      have b := ix.isLt
      refine Fin.ext ?_
      simp only [pdx1, pgSize, pdSize, Fin.val_ofNat]
      omega
    have zero : pdx0 ((d1 * 262144 + d0 * 512 + ix) * pgSize) = d0 := by
      have b := ix.isLt
      refine Fin.ext ?_
      simp only [pdx0, pgSize, ptSize, Fin.val_ofNat]
      omega
    have leaf : ptx ((d1 * 262144 + d0 * 512 + ix) * pgSize) = ix := by
      refine Fin.ext ?_
      simp only [ptx, pgSize, Fin.val_ofNat]
      omega
    simp [Pgdir.entry, Pgdir.lookup, one, zero, leaf, atDir, atTable]

theorem unmapped_emptied (pgdir : Pgdir) (unmapped : ∀ vpn, vpn < nPages → pgdir.entry vpn = none) : pgdir.Emptied := by
  intro d1 dir atDir d0 table atTable
  simp only [tableEmpty, List.all_eq_true, List.mem_finRange, true_implies]
  intro ix
  obtain ⟨vpn, bound, entry⟩ := table_entry pgdir d1 d0 ix dir table atDir atTable
  rw [← entry, unmapped vpn bound]
  rfl

theorem unmap_all_pages (mem : Mem) (pgdir : Pgdir) (vmas : List Vma) (fits : ∀ vma ∈ vmas, vma.Fits) :
    unmapAll mem pgdir vmas = unmapPages mem pgdir (vmas.flatMap fun vma => pagesBetween vma.vmStart vma.vmEnd) := by
  induction vmas generalizing mem pgdir with
  | nil => rfl
  | cons vma rest ih =>
      have fit := fits vma (by simp)
      have fine : vma.vmStart % pgSize = 0 ∧ vma.vmEnd % pgSize = 0 ∧ UserAccess vma.vmStart vma.vmEnd := fit
      rw [unmapAll, unmap_range_pages, if_pos fine, List.flatMap_cons, unmap_pages_append]
      cases unmapPages mem pgdir (pagesBetween vma.vmStart vma.vmEnd) with
      | error fault => rfl
      | ok result => exact ih result.1 result.2 fun other inside => fits other (by simp [inside])

theorem visits_distinct (vma : Vma) (visit : Visit) (inside : visit ∈ vma.visits) : visit.2.Nodup := by
  obtain ⟨r, _, rfl⟩ := List.mem_map.mp inside
  exact slots_distinct _ _ r (Nat.le_max_right _ _) (Nat.min_le_left _ _)

-- For each second-level table: the areas that touch its 1 GB close it.
def Mm.TablesClose (mm : Mm) : Prop := ∀ d1 dir, mm.pgdir.entries d1 = some dir →
  closes (slotsAt d1 (mm.mmapList.flatMap Vma.visits)) dir.present = true

def Mm.tablesClose (mm : Mm) : Bool := (List.finRange 512).all fun d1 =>
  (mm.pgdir.entries d1).all fun dir => closes (slotsAt d1 (mm.mmapList.flatMap Vma.visits)) dir.present

theorem tables_close_iff (mm : Mm) : mm.tablesClose = true ↔ mm.TablesClose := by
  simp only [Mm.tablesClose, Mm.TablesClose, List.all_eq_true, List.mem_finRange, true_implies, Option.all_eq_true]

-- Nothing is in use without a reference but tables and what belongs to others.
def Referenced (mem : Mem) (pgdir : Pgdir) (foreign : Nat → Prop) : Prop :=
  ∀ page, mem.free page = false → ¬ foreign page → (∀ a, pgdir.pageAt a ≠ some page) → mem.ref page ≠ 0

theorem page_remove_pte_referenced (mem mem' : Mem) (pgdir pgdir' : Pgdir) (foreign : Nat → Prop) (la : Nat)
    (referenced : Referenced mem pgdir foreign) (ran : pageRemovePte mem pgdir la = .ok (mem', pgdir')) :
    Referenced mem' pgdir' foreign := by
  unfold pageRemovePte at ran
  split at ran
  · rename_i pte found
    have noTableBefore : ∀ page, (∀ a, (pgdir.setPte la none).pageAt a ≠ some page) → ∀ a, pgdir.pageAt a ≠ some page :=
      fun page noTable a here => noTable a (by rw [set_pte_page]; exact here)
    by_cases last : (mem.setRef pte.ppn (mem.ref pte.ppn - 1)).ref pte.ppn = 0
    · simp only [if_pos last] at ran
      obtain ⟨memR, dropped, ran⟩ := bind_ok ran
      obtain ⟨rfl, rfl⟩ := Prod.mk.inj (Except.ok.inj ran)
      unfold Mem.freePage at dropped
      split at dropped
      · simp at dropped
      · obtain rfl := Except.ok.inj dropped
        intro page used noForeign noTable
        by_cases same : page = pte.ppn
        · simp [same] at used
        · simp only [Mem.setRef, Function.update_of_ne same] at used ⊢
          exact referenced page used noForeign (noTableBefore page noTable)
    · simp only [if_neg last, ok_bind] at ran
      obtain ⟨rfl, rfl⟩ := Prod.mk.inj (Except.ok.inj ran)
      intro page used noForeign noTable
      by_cases same : page = pte.ppn
      · rw [same]
        exact last
      · simp only [Mem.setRef, Function.update_of_ne same] at used ⊢
        exact referenced page used noForeign (noTableBefore page noTable)
  · simp only [Except.ok.injEq, Prod.mk.injEq] at ran
    obtain ⟨rfl, rfl⟩ := ran
    exact referenced

theorem unmap_pages_referenced (vpns : List Nat) (mem mem' : Mem) (pgdir pgdir' : Pgdir) (foreign : Nat → Prop)
    (referenced : Referenced mem pgdir foreign) (ran : unmapPages mem pgdir vpns = .ok (mem', pgdir')) :
    Referenced mem' pgdir' foreign := by
  induction vpns generalizing mem pgdir with
  | nil =>
      obtain ⟨rfl, rfl⟩ := Prod.mk.inj (Except.ok.inj ran)
      exact referenced
  | cons vpn rest ih =>
      rw [unmapPages] at ran
      obtain ⟨⟨memR, pgdirR⟩, removed, ran⟩ := bind_ok ran
      exact ih memR pgdirR (page_remove_pte_referenced mem memR pgdir pgdirR foreign _ referenced removed) ran

theorem exit_mmap_ok (mem memU mem' : Mem) (mm : Mm) (pgdir pgdir' : Pgdir) (unmapped : unmapAll mem mm.pgdir mm.mmapList = .ok (memU, pgdir))
    (exited : exitAll memU pgdir mm.mmapList = .ok (mem', pgdir')) : exitMmap mem mm = .ok (mem', { mm with pgdir := pgdir' }) := by
  rw [exitMmap, unmapped, ok_bind]
  simp only [exited, ok_bind, pure_ok]

theorem covered_unmapped (mm : Mm) (pgdir : Pgdir) (covered : mm.Covered)
    (entries : ∀ vpn, vpn < nPages → pgdir.entry vpn = if mm.HasArea (vpn * pgSize) then none else mm.pgdir.entry vpn) (vpn : Nat)
    (bound : vpn < nPages) : pgdir.entry vpn = none := by
  rw [entries vpn bound]
  by_cases mapped : mm.pgdir.entry vpn = none
  · simp [mapped]
  · rw [if_pos (covered vpn bound mapped)]

theorem unmapped_count (pgdir : Pgdir) (unmapped : ∀ vpn, vpn < nPages → pgdir.entry vpn = none) (page : Nat) : pgdir.count page = 0 := by
  by_contra some
  obtain ⟨vpn, bound, maps⟩ := (count_pos pgdir page).mp (Nat.pos_of_ne_zero some)
  rw [Pgdir.Maps, unmapped vpn bound] at maps
  simp at maps

section Exit

variable (mem : Mem) (mm : Mm) (foreign : Nat → Prop) (outside : Nat → Nat) (space : Space mem mm.pgdir foreign outside)
  (areas : Areas mm.mmapList)

include space areas

-- The first walk of exit_mmap: no entry in an area stays, and the tables do.
theorem unmap_all_spec : ∃ mem' pgdir log, unmapAll mem mm.pgdir mm.mmapList = .ok (mem', pgdir) ∧ Space mem' pgdir foreign outside ∧
    (∀ a, pgdir.pageAt a = mm.pgdir.pageAt a) ∧
    (∀ vpn, vpn < nPages → pgdir.entry vpn = if mm.HasArea (vpn * pgSize) then none else mm.pgdir.entry vpn) ∧
    (Referenced mem mm.pgdir foreign → Referenced mem' pgdir foreign) ∧ mem'.freed = log ++ mem.freed ∧
    Returned (fun page => mm.pgdir.count page + outside page) (fun page => pgdir.count page + outside page) log := by
  obtain ⟨mem', pgdir, unmapped, space', pages, entries, log, freed, returned⟩ := unmap_pages_spec _ _
    (mm.mmapList.flatMap fun vma => pagesBetween vma.vmStart vma.vmEnd) mem mm.pgdir space fun vpn inside => by
      obtain ⟨vma, listed, inside⟩ := List.mem_flatMap.mp inside
      have fit := areas.fits vma listed
      have user := user_page _ ((range_pages vma.vmStart vma.vmEnd fit.1 fit.2.1 fit.2.2).2.2.2.2 vpn inside)
      rwa [page_index] at user
  have listed : ∀ vpn, (vpn ∈ mm.mmapList.flatMap fun vma => pagesBetween vma.vmStart vma.vmEnd) ↔ mm.HasArea (vpn * pgSize) := by
    intro vpn
    rw [List.mem_flatMap]
    exact exists_congr fun vma => and_congr_right fun member => has_page vma (areas.fits vma member) vpn
  refine ⟨mem', pgdir, log, ?_, space', pages, fun vpn bound => ?_, fun referenced => ?_, freed, returned⟩
  · rw [unmap_all_pages mem mm.pgdir mm.mmapList areas.fits, unmapped]
  · rw [entries vpn bound]
    simp only [listed]
  · exact unmap_pages_referenced _ mem mem' mm.pgdir pgdir foreign referenced unmapped

end Exit

-- The second walk and put_pgdir, on tables without an entry: the pages that the
-- walk closes go, and the root.
theorem exit_all_put (mem : Mem) (mm : Mm) (pgdir : Pgdir) (foreign : Nat → Prop) (outside : Nat → Nat)
    (space : Space mem pgdir foreign outside) (areas : Areas mm.mmapList) (emptied : pgdir.Emptied) :
    ∃ mem' mem'', exitAll mem pgdir mm.mmapList = .ok (mem', (closeAll pgdir (mm.mmapList.flatMap Vma.visits)).2) ∧
      putPgdir mem' { mm with pgdir := (closeAll pgdir (mm.mmapList.flatMap Vma.visits)).2 } = .ok mem'' ∧
      mem''.freed = pgdir.page :: ((closeAll pgdir (mm.mmapList.flatMap Vma.visits)).1.reverse ++ mem.freed) ∧
      ∀ page, mem''.free page = true ↔
        page = pgdir.page ∨ page ∈ (closeAll pgdir (mm.mmapList.flatMap Vma.visits)).1 ∨ mem.free page = true := by
  have once : pgdir.Once := space.once
  have distinct := close_all_distinct (mm.mmapList.flatMap Vma.visits) pgdir once fun visit inside => by
    obtain ⟨vma, _, inside⟩ := List.mem_flatMap.mp inside
    exact visits_distinct vma visit inside
  have places := close_all_place (mm.mmapList.flatMap Vma.visits) pgdir once
  obtain ⟨memC, closed, freedC, kept, given⟩ := free_all_spec _ distinct mem fun page given => by
    obtain ⟨a, _, at'⟩ := places page given
    exact (space.tables a page at').1
  have rootKept : pgdir.page ∉ (closeAll pgdir (mm.mmapList.flatMap Vma.visits)).1 := by
    intro given
    obtain ⟨a, apart, at'⟩ := places _ given
    exact apart (once a .root _ at' rfl)
  have rootUsed : memC.free pgdir.page = false := by
    rw [kept _ rootKept]
    exact (space.tables .root _ rfl).1
  have closedPage : ∀ visits : List Visit, ∀ pgdir : Pgdir, (closeAll pgdir visits).2.page = pgdir.page := by
    intro visits
    induction visits with
    | nil => intro pgdir; rfl
    | cons visit rest ih =>
        intro pgdir
        rw [closeAll]
        exact ih _
  refine ⟨memC, _, ?_, by rw [putPgdir, closedPage, Mem.freePage, rootUsed]; rfl, by simp [freedC], fun page => ?_⟩
  · rw [exit_all_spec mem pgdir mm.mmapList areas.fits emptied, closed, ok_bind]
  · by_cases root : page = pgdir.page
    · simp [root]
    · by_cases inside : page ∈ (closeAll pgdir (mm.mmapList.flatMap Vma.visits)).1
      · simp [root, inside, given page inside]
      · simp [root, inside, kept page inside]

-- Every directory and every table goes exactly when the areas close them.
theorem tables_given_iff (mm : Mm) (pgdir : Pgdir) (once : pgdir.Once) (pages : ∀ a, pgdir.pageAt a = mm.pgdir.pageAt a) :
    (∀ a page, a ≠ .root → pgdir.pageAt a = some page → page ∈ (closeAll pgdir (mm.mmapList.flatMap Vma.visits)).1) ↔ mm.TablesClose := by
  have presentEq : ∀ d1 dir old, pgdir.entries d1 = some dir → mm.pgdir.entries d1 = some old → dir.present = old.present := by
    intro d1 dir old atDir atOld
    funext d0
    have same := congrArg Option.isSome (pages (.table d1 d0))
    simpa [Pgdir.pageAt, atDir, atOld, PageDir.tablePage, PageDir.present] using same
  have bothDirs : ∀ d1, (pgdir.entries d1).isSome = (mm.pgdir.entries d1).isSome := by
    intro d1
    have same := congrArg Option.isSome (pages (.dir d1))
    simpa [Pgdir.pageAt] using same
  generalize visited : mm.mmapList.flatMap Vma.visits = visits
  constructor
  · intro all d1 old atOld
    obtain ⟨dir, atDir⟩ := Option.isSome_iff_exists.mp ((bothDirs d1).trans (by simp [atOld]))
    rw [visited, ← presentEq d1 dir old atDir atOld]
    refine (close_all_closes visits pgdir once d1 dir atDir).mp ⟨all (.dir d1) _ (by simp) (by simp [Pgdir.pageAt, atDir]),
      fun d0 page at' => all (.table d1 d0) page (by simp) (by simp [Pgdir.pageAt, atDir, at'])⟩
  · intro closed a page apart at'
    have given : ∀ d1 dir, pgdir.entries d1 = some dir → dir.page ∈ (closeAll pgdir visits).1 ∧
        ∀ d0 page, dir.tablePage d0 = some page → page ∈ (closeAll pgdir visits).1 := by
      intro d1 dir atDir
      obtain ⟨old, atOld⟩ := Option.isSome_iff_exists.mp ((bothDirs d1).symm.trans (by simp [atDir]))
      have closes := closed d1 old atOld
      rw [visited, ← presentEq d1 dir old atDir atOld] at closes
      exact (close_all_closes visits pgdir once d1 dir atDir).mpr closes
    cases a with
    | root => exact absurd rfl apart
    | dir d1 =>
        obtain ⟨dir, atDir, rfl⟩ := Option.map_eq_some_iff.mp at'
        exact (given d1 dir atDir).1
    | table d1 d0 =>
        obtain ⟨dir, atDir, inDir⟩ := Option.bind_eq_some_iff.mp at'
        exact (given d1 dir atDir).2 d0 page inDir

end Ucore.Vmm
