import Ucore.Exec.LoadCleanup
import Ucore.Proc.Family

set_option autoImplicit false

namespace Ucore.Exec

open Ucore.Lib Ucore.Vmm

def eNoFreeProc : Int := -5

-- What a fork gets from kmalloc and keeps.
inductive ForkBlock where
  | proc
  | files
  | memory (block : Block)
deriving DecidableEq, Repr

-- The kmallocs of a fork, of which the vma_structs come one by one, and
-- alloc_pages(KSTACKPAGE), which gives the first of two free pages. The pages that
-- alloc_page gives are the memory manager's, which may have none at any point.
structure ForkFailures where
  procStruct : Bool
  mmStruct : Bool
  vmaStruct : Mm → Bool
  filesStruct : Bool
  kstack : (Nat → Bool) → Option Nat
  fresh : ∀ free page, kstack free = some page → free page = true ∧ free (page + 1) = true

def setupKstack (fails : ForkFailures) (mem : Mem) : Option (Nat × Mem) :=
  (fails.kstack mem.free).map fun page => (page, { mem with free := Function.update (Function.update mem.free page false) (page + 1) false })

def putKstack (mem : Mem) (kstack : Nat) : Except Fault Mem := do
  let mem ← mem.freePage kstack
  mem.freePage (kstack + 1)

-- dup_mmap, where vma_create may fail. It gives back the areas that it made too.
def dupMmapOr (fails : ForkFailures) (mem : Mem) (target : Mm) (source : Pgdir) : List Vma → Except Fault (Int × Mem × Mm × List Block)
  | [] => .ok (0, mem, target, [])
  | vma :: rest =>
      if fails.vmaStruct target then .ok (eNoMem, mem, target, [])
      else do
        let target ← insertVmaStruct target vma
        let (ret, mem, pgdir) ← copyRange mem target.pgdir source vma.vmStart vma.vmEnd
        let target := { target with pgdir := pgdir }
        if ret ≠ 0 then return (eNoMem, mem, target, [.vma vma])
        else
          let (ret, mem, target, made) ← dupMmapOr fails mem target source rest
          return (ret, mem, target, .vma vma :: made)

-- What a step of do_fork got and gave back.
structure Blocks (B : Type) where
  made : List B
  kfreed : List B

-- The memory of the child, if it has one, and the count of the parent's.
def copyMm (fails : ForkFailures) (mem : Mem) (oldmm : Option Mm) (mmCount : Nat) (cloneVm : Bool) :
    Except Fault (Int × Mem × Option Mm × Nat × Blocks Block) :=
  match oldmm with
  | none => .ok (0, mem, none, mmCount, ⟨[], []⟩)
  | some oldmm =>
      if cloneVm then .ok (0, mem, some oldmm, mmCount + 1, ⟨[], []⟩)
      else if fails.mmStruct then .ok (eNoMem, mem, none, mmCount, ⟨[], []⟩)
      else
        match mmCreate mem with
        | none => .ok (eNoMem, mem, none, mmCount, ⟨[.mm], [.mm]⟩)
        | some (mm, mem) => do
            let (ret, mem, mm, made) ← dupMmapOr fails mem mm oldmm.pgdir oldmm.mmapList.reverse
            if ret ≠ 0 then
              let (mem, mm) ← exitMmap mem mm
              let mem ← putPgdir mem mm
              return (ret, mem, none, mmCount, ⟨.mm :: made, mmDestroy mm⟩)
            else return (0, mem, some mm, mmCount, ⟨.mm :: made, []⟩)

-- The count of the parent's files_struct; dup_files itself does not fail.
def copyFiles (fails : ForkFailures) (filesCount : Nat) (cloneFs : Bool) : Except Fault (Int × Nat × List ForkBlock) :=
  if cloneFs then .ok (0, filesCount + 1, [])
  else if fails.filesStruct then .ok (eNoMem, filesCount, [])
  else do
    check (0 < filesCount) .assertFailed
    return (0, filesCount, [.files])

structure ForkedChild where
  kstack : Nat
  mm : Option Mm

structure Forked where
  ret : Int
  mem : Mem
  mmCount : Nat
  filesCount : Nat
  blocks : Blocks ForkBlock
  child : Option ForkedChild

-- do_fork; pid is what get_pid finds in the end. The process lists and nr_process
-- change only behind the last step that may fail.
def doFork (fails : ForkFailures) (mem : Mem) (nrProcess pid : Int) (oldmm : Option Mm) (mmCount filesCount : Nat) (cloneVm cloneFs : Bool) :
    Except Fault Forked :=
  if Proc.maxProcess ≤ nrProcess then .ok ⟨eNoFreeProc, mem, mmCount, filesCount, ⟨[], []⟩, none⟩
  else if fails.procStruct then .ok ⟨eNoMem, mem, mmCount, filesCount, ⟨[], []⟩, none⟩
  else
    match setupKstack fails mem with
    | none => .ok ⟨eNoMem, mem, mmCount, filesCount, ⟨[.proc], [.proc]⟩, none⟩
    | some (kstack, mem) => do
        let (ret, mem, mm, mmCount, memory) ← copyMm fails mem oldmm mmCount cloneVm
        let made := .proc :: memory.made.map .memory
        let kfreed := memory.kfreed.map .memory
        if ret ≠ 0 then
          let mem ← putKstack mem kstack
          return ⟨ret, mem, mmCount, filesCount, ⟨made, kfreed ++ [.proc]⟩, none⟩
        else
          let (ret, filesCount, files) ← copyFiles fails filesCount cloneFs
          if ret ≠ 0 then
            let mem ← putKstack mem kstack
            return ⟨ret, mem, mmCount, filesCount, ⟨made, kfreed ++ [.proc]⟩, none⟩
          else return ⟨pid, mem, mmCount, filesCount, ⟨made ++ files, kfreed⟩, some ⟨kstack, mm⟩⟩

-- A table that is there is found again.
theorem get_pte_found (mem : Mem) (pgdir : Pgdir) (la : Nat) (old : Option Pte) (found : pgdir.lookup la = some old) :
    getPte mem pgdir la = (true, mem, pgdir) := by
  obtain ⟨dir, table, atDir, atTable, _⟩ := lookup_some pgdir la old found
  have sameTable : dir.setTable (pdx0 la) (some table) = dir := by rw [← atTable, PageDir.setTable, Function.update_eq_self]
  have sameDir : pgdir.setDir (pdx1 la) (some dir) = pgdir := by rw [← atDir, Pgdir.setDir, Function.update_eq_self]
  simp only [getPte, getDir, getTable, atDir, atTable, sameTable, sameDir]

theorem page_insert_found (mem : Mem) (pgdir : Pgdir) (page la perm : Nat) (found : pgdir.lookup la = some none) :
    pageInsert mem pgdir page la perm = .ok (0, mem.setRef page (mem.ref page + 1), pgdir.setPte la (some (pteCreate page (pteV ||| perm)))) := by
  simp only [pageInsert, get_pte_found mem pgdir la none found, found, ok_bind, pure_ok]

-- There is a page to copy and a table to put it in, and no page left for the copy.
structure PageStarves (mem : Mem) (target source : Pgdir) (vpn : Nat) : Prop where
  entry : ∃ pte, source.lookup (vpn * pgSize) = some (some pte)
  table : ∃ memG targetG, getPte mem target (vpn * pgSize) = (true, memG, targetG) ∧ memG.allocPage = none

section Copy

variable (foreign : Nat → Prop) (source : Pgdir)

theorem grown_built (mem memG : Mem) (target targetG : Pgdir) (built : Built mem target foreign) (grown : Grown mem memG target targetG) :
    Built memG targetG foreign := by
  refine ⟨⟨grown_space mem memG target targetG foreign _ built.image.space grown, fun v w left right boundV boundW atV atW => ?_⟩,
    fun page used away untabled => ?_⟩
  · rw [grown.entry v boundV] at atV
    rw [grown.entry w boundW] at atW
    exact built.image.own v w left right boundV boundW atV atW
  · obtain ⟨before, same⟩ := grown_untabled mem memG target targetG grown page used untabled
    rw [same]
    exact built.referenced page before away fun a here => untabled a (grown.kept a page here)

-- A page of the copy goes to a place that nothing is at.
theorem insert_built (mem : Mem) (target : Pgdir) (built : Built mem target foreign) (vpn npage perm : Nat) (small : vpn < nPages)
    (found : target.lookup (vpn * pgSize) = some none) (memA : Mem) (taken : mem.allocPage = some (npage, memA)) (phys : Bytes) :
    Built ({ memA with phys := phys }.setRef npage (memA.ref npage + 1)) (target.setPte (vpn * pgSize) (some (pteCreate npage perm))) foreign ∧
      ∀ other, other < nPages → other ≠ vpn → (target.setPte (vpn * pgSize) (some (pteCreate npage perm))).entry other = target.entry other := by
  have index : vpn * pgSize / pgSize < nPages := by rwa [page_index]
  obtain ⟨free, shape⟩ := alloc_page_spec mem memA npage taken
  obtain ⟨noTable, noForeign, _, unmapped, unref⟩ := free_unused mem target foreign _ built.image.space npage free
  obtain ⟨spaceA, usedA, _⟩ := alloc_space mem target foreign _ built.image.space npage memA taken
  have spaceC := space_phys memA target foreign _ spaceA phys
  have entries := set_pte_entry target (vpn * pgSize) (some (pteCreate npage perm)) none found index
  have swapped := swap_space _ target foreign _ npage (vpn * pgSize) perm none spaceC usedA noTable noForeign found index
  refine ⟨⟨⟨swapped, fun v w left right boundV boundW atV atW same => ?_⟩, fun page used away untabled => ?_⟩, fun other bound apart => ?_⟩
  · rw [entries v boundV, page_index] at atV
    rw [entries w boundW, page_index] at atW
    have apart : ∀ u pte, u < nPages → target.entry u = some pte → pte.ppn ≠ npage := by
      intro u pte bound entry clash
      have positive := (count_pos target pte.ppn).mpr ⟨u, bound, by simp [Pgdir.Maps, entry]⟩
      rw [clash] at positive
      omega
    by_cases first : v = vpn
    · by_cases second : w = vpn
      · rw [first, second]
      · rw [if_pos first] at atV
        rw [if_neg second] at atW
        obtain rfl := Option.some.inj atV
        exact absurd same.symm (apart w right boundW atW)
    · rw [if_neg first] at atV
      by_cases second : w = vpn
      · rw [if_pos second] at atW
        obtain rfl := Option.some.inj atW
        exact absurd same (apart v left boundV atV)
      · rw [if_neg second] at atW
        exact built.image.own v w left right boundV boundW atV atW same
  · have untabledT : ∀ a, target.pageAt a ≠ some page := fun a here => untabled a (by rw [set_pte_page]; exact here)
    by_cases same : page = npage
    · rw [same]
      have zero : memA.ref npage = 0 := by rw [shape]; exact unref
      simp [Mem.setRef, zero]
    · have before : mem.free page = false := by simpa [Mem.setRef, shape, same] using used
      have kept := built.referenced page before away untabledT
      simpa [Mem.setRef, same, shape] using kept
  · rw [entries other bound, page_index, if_neg apart]

theorem copy_page_built (mem : Mem) (target : Pgdir) (built : Built mem target foreign) (vpn : Nat) (small : vpn < nPages)
    (empty : target.entry vpn = none) :
    (∃ ret mem' target', copyPage mem target source (vpn * pgSize) = .ok (ret, mem', target') ∧ Built mem' target' foreign ∧
      (∀ other, other < nPages → other ≠ vpn → target'.entry other = target.entry other) ∧ ¬ PageStarves mem target source vpn) ∨
    (copyPage mem target source (vpn * pgSize) = .error .assertFailed ∧ PageStarves mem target source vpn) := by
  cases looked : source.lookup (vpn * pgSize) with
  | none =>
      refine .inl ⟨0, mem, target, by simp only [copyPage, looked], built, fun _ _ _ => rfl, fun starves => ?_⟩
      obtain ⟨pte, there⟩ := starves.entry
      rw [looked] at there
      cases there
  | some entry =>
      cases entry with
      | none =>
          refine .inl ⟨0, mem, target, by simp only [copyPage, looked], built, fun _ _ _ => rfl, fun starves => ?_⟩
          obtain ⟨pte, there⟩ := starves.entry
          rw [looked] at there
          cases there
      | some pte =>
          obtain ⟨placed, memG, targetG, got, grown, reached⟩ := get_pte_spec mem target (vpn * pgSize)
          have builtG := grown_built foreign mem memG target targetG built grown
          cases placed with
          | false =>
              refine .inl ⟨eNoMem, memG, targetG, by simp only [copyPage, looked, got], builtG, fun other bound _ => grown.entry other bound,
                fun starves => ?_⟩
              obtain ⟨memS, targetS, again, _⟩ := starves.table
              rw [got] at again
              cases again
          | true =>
              obtain ⟨old, found⟩ := reached rfl
              have nothing : old = none := by
                have here := lookup_entry targetG (vpn * pgSize)
                rw [found, page_index, grown.entry vpn small, empty] at here
                exact here
              subst nothing
              cases taken : memG.allocPage with
              | none =>
                  exact .inr ⟨by simp only [copyPage, looked, got, taken], ⟨pte, looked⟩, memG, targetG, got, taken⟩
              | some result =>
                  obtain ⟨npage, memA⟩ := result
                  obtain ⟨builtC, others⟩ := insert_built foreign memG targetG builtG vpn npage (pteV ||| (pte.flags &&& pteUser)) small found memA
                    taken (memcpy memA.phys (npage * pgSize) (memA.phys.from (pte.ppn * pgSize)) pgSize)
                  refine .inl ⟨0, _, _, ?_, builtC, fun other bound apart => (others other bound apart).trans (grown.entry other bound), fun starves => ?_⟩
                  · simp only [copyPage, looked, got, taken]
                    exact page_insert_found _ targetG npage _ _ found
                  · obtain ⟨memS, targetS, again, without⟩ := starves.table
                    rw [got] at again
                    obtain ⟨rfl, rfl⟩ := Prod.mk.inj (Prod.mk.inj again).2
                    rw [taken] at without
                    cases without

-- The copy of some pages meets one that there is no memory for.
inductive PagesStarve : Mem → Pgdir → List Nat → Prop where
  | here (mem : Mem) (target : Pgdir) (vpn : Nat) (rest : List Nat) (starves : PageStarves mem target source vpn) :
      PagesStarve mem target (vpn :: rest)
  | next (mem mem' : Mem) (target target' : Pgdir) (vpn : Nat) (rest : List Nat)
      (copied : copyPage mem target source (vpn * pgSize) = .ok (0, mem', target')) (later : PagesStarve mem' target' rest) :
      PagesStarve mem target (vpn :: rest)

theorem copy_pages_built (vpns : List Nat) (distinct : vpns.Nodup) (mem : Mem) (target : Pgdir) (built : Built mem target foreign)
    (fresh : ∀ vpn ∈ vpns, vpn < nPages ∧ target.entry vpn = none) :
    (∃ ret mem' target', copyPages mem target source vpns = .ok (ret, mem', target') ∧ Built mem' target' foreign ∧
      (∀ other, other < nPages → other ∉ vpns → target'.entry other = target.entry other) ∧ ¬ PagesStarve source mem target vpns) ∨
    (copyPages mem target source vpns = .error .assertFailed ∧ PagesStarve source mem target vpns) := by
  induction vpns generalizing mem target with
  | nil => exact .inl ⟨0, mem, target, rfl, built, fun _ _ _ => rfl, nofun⟩
  | cons vpn rest ih =>
      obtain ⟨notRest, distinctRest⟩ := List.nodup_cons.mp distinct
      obtain ⟨small, empty⟩ := fresh vpn (by simp)
      rcases copy_page_built foreign source mem target built vpn small empty with done | stopped
      · obtain ⟨ret, memC, targetC, copied, builtC, others, fed⟩ := done
        rw [copyPages, copied, ok_bind]
        by_cases failed : ret ≠ 0
        · simp only [if_pos failed]
          refine .inl ⟨ret, memC, targetC, rfl, builtC, fun other bound away => others other bound fun same => away (by simp [same]), ?_⟩
          rintro (⟨_, _, _, _, starves⟩ | ⟨_, _, _, _, _, _, again, _⟩)
          · exact fed starves
          · rw [copied] at again
            exact failed (Prod.mk.inj (Except.ok.inj again)).1
        · simp only [if_neg failed]
          obtain rfl := not_not.mp failed
          have still : ∀ other ∈ rest, other < nPages ∧ targetC.entry other = none := by
            intro other inside
            obtain ⟨bound, none'⟩ := fresh other (by simp [inside])
            exact ⟨bound, (others other bound fun same => notRest (same ▸ inside)).trans none'⟩
          rcases ih distinctRest memC targetC builtC still with finished | stopped
          · obtain ⟨ret', mem', target', ran, built', entries, fed'⟩ := finished
            refine .inl ⟨ret', mem', target', ran, built', fun other bound away => ?_, ?_⟩
            · rw [entries other bound fun inside => away (by simp [inside]), others other bound fun same => away (by simp [same])]
            · rintro (⟨_, _, _, _, starves⟩ | ⟨_, _, _, _, _, _, again, later⟩)
              · exact fed starves
              · rw [copied] at again
                obtain ⟨rfl, rfl⟩ := Prod.mk.inj (Prod.mk.inj (Except.ok.inj again)).2
                exact fed' later
          · exact .inr ⟨stopped.1, .next mem memC target targetC vpn rest copied stopped.2⟩
      · refine .inr ⟨?_, .here mem target vpn rest stopped.2⟩
        rw [copyPages, stopped.1, error_bind]

-- The same for the areas of a fork, which each get a vma_struct first.
inductive Starves (fails : ForkFailures) : Mem → Mm → List Vma → Prop where
  | here (mem : Mem) (target targetI : Mm) (vma : Vma) (rest : List Vma) (works : fails.vmaStruct target = false)
      (inserted : insertVmaStruct target vma = .ok targetI)
      (starve : PagesStarve source mem targetI.pgdir (pagesBetween vma.vmStart vma.vmEnd)) : Starves fails mem target (vma :: rest)
  | next (mem mem' : Mem) (target targetI : Mm) (pgdir : Pgdir) (vma : Vma) (rest : List Vma) (works : fails.vmaStruct target = false)
      (inserted : insertVmaStruct target vma = .ok targetI)
      (copied : copyRange mem targetI.pgdir source vma.vmStart vma.vmEnd = .ok (0, mem', pgdir))
      (later : Starves fails mem' { targetI with pgdir := pgdir } rest) : Starves fails mem target (vma :: rest)

theorem starves_cases (fails : ForkFailures) (mem : Mem) (target targetI : Mm) (vma : Vma) (rest : List Vma)
    (inserted : insertVmaStruct target vma = .ok targetI) (starves : Starves source fails mem target (vma :: rest)) :
    PagesStarve source mem targetI.pgdir (pagesBetween vma.vmStart vma.vmEnd) ∨
      ∃ mem' pgdir, copyRange mem targetI.pgdir source vma.vmStart vma.vmEnd = .ok (0, mem', pgdir) ∧
        Starves source fails mem' { targetI with pgdir := pgdir } rest := by
  cases starves with
  | here _ _ targetS _ _ _ again starve =>
      rw [inserted] at again
      obtain rfl := Except.ok.inj again
      exact .inl starve
  | next _ memC _ targetS pgdir _ _ _ again copied later =>
      rw [inserted] at again
      obtain rfl := Except.ok.inj again
      exact .inr ⟨memC, pgdir, copied, later⟩

theorem insert_dup (target : Mm) (vma : Vma) (made : List Block) (mapped : Mapped target made) (fit : vma.Fits)
    (ordered : ∀ next ∈ target.mmapList, vma.vmEnd ≤ next.vmStart) :
    ∃ targetI, insertVmaStruct target vma = .ok targetI ∧ targetI.mmapList = vma :: target.mmapList ∧ targetI.pgdir = target.pgdir ∧
      Mapped targetI (made ++ [.vma vma]) := by
  obtain ⟨before, after, _, _, inserted⟩ := insert_vma_ok target vma (areas_ordered target.mmapList mapped.areas) fit.2.2.2.1
    fun other member => .inr (ordered other member)
  obtain ⟨list, same⟩ := insert_front target _ vma (fun next inside => Nat.lt_of_lt_of_le fit.2.2.2.1 (ordered next inside)) inserted
  exact ⟨_, inserted, list, same, insert_vma_blocks target _ vma made mapped fit inserted⟩

theorem area_fresh (target : Mm) (vma : Vma) (covered : target.Covered) (fit : vma.Fits)
    (ordered : ∀ next ∈ target.mmapList, vma.vmEnd ≤ next.vmStart) :
    ∀ vpn ∈ pagesBetween vma.vmStart vma.vmEnd, vpn < nPages ∧ target.pgdir.entry vpn = none := by
  intro vpn inside
  have user := (range_pages vma.vmStart vma.vmEnd fit.1 fit.2.1 fit.2.2).2.2.2.2 vpn inside
  have bound : vpn < nPages := by
    have page := user_page _ user
    rwa [page_index] at page
  refine ⟨bound, ?_⟩
  by_contra mapped
  obtain ⟨next, listed, has⟩ := covered vpn bound mapped
  have before := ((has_page vma fit vpn).mp inside).2
  have after := has.1
  have order := ordered next listed
  omega

theorem dup_loading (fails : ForkFailures) (parent : List Vma) (areas : Areas parent) (vmas : List Vma) (mem : Mem) (target : Mm)
    (made : List Block) (loading : Loading mem target made foreign) (covered : target.Covered)
    (split : parent = vmas.reverse ++ target.mmapList) :
    (∃ ret mem' target' new, dupMmapOr fails mem target source vmas = .ok (ret, mem', target', new) ∧ (ret = 0 ∨ ret = eNoMem) ∧
      Loading mem' target' (made ++ new) foreign ∧ target'.Covered ∧ ¬ Starves source fails mem target vmas) ∨
    (dupMmapOr fails mem target source vmas = .error .assertFailed ∧ Starves source fails mem target vmas) := by
  induction vmas generalizing mem target made with
  | nil => exact .inl ⟨0, mem, target, [], rfl, .inl rfl, by rwa [List.append_nil], covered, nofun⟩
  | cons vma rest ih =>
      rw [dupMmapOr]
      by_cases fail : fails.vmaStruct target = true
      · rw [if_pos fail]
        refine .inl ⟨eNoMem, mem, target, [], rfl, .inr rfl, by rwa [List.append_nil], covered, ?_⟩
        rintro (⟨_, _, _, _, _, works, _, _⟩ | ⟨_, _, _, _, _, _, _, works, _, _, _⟩)
        · rw [fail] at works
          cases works
        · rw [fail] at works
          cases works
      · have works := Bool.eq_false_iff.mpr fail
        have fit := areas.fits vma (by simp [split])
        have ordered : ∀ next ∈ target.mmapList, vma.vmEnd ≤ next.vmStart := by
          have apart := areas.apart
          rw [split, List.reverse_cons, List.append_assoc] at apart
          obtain ⟨_, tail, _⟩ := List.pairwise_append.mp apart
          exact (List.pairwise_cons.mp tail).1
        obtain ⟨targetI, inserted, list, same, mappedI⟩ := insert_dup target vma made loading.mapped fit ordered
        have range := copy_range_pages vma.vmStart vma.vmEnd mem targetI.pgdir source
        have fine : vma.vmStart % pgSize = 0 ∧ vma.vmEnd % pgSize = 0 ∧ UserAccess vma.vmStart vma.vmEnd := fit
        rw [if_pos fine] at range
        rw [if_neg fail, inserted, ok_bind]
        rcases copy_pages_built foreign source (pagesBetween vma.vmStart vma.vmEnd) List.nodup_range' mem targetI.pgdir (by rw [same]; exact loading.built)
          (by rw [same]; exact area_fresh target vma covered fit ordered) with done | stopped
        · obtain ⟨ret, memC, pgdirC, copied, builtC, others, fed⟩ := done
          rw [copied] at range
          rw [range, ok_bind]
          have loadingC : Loading memC { targetI with pgdir := pgdirC } (made ++ [.vma vma]) foreign :=
            ⟨builtC, mapped_pgdir targetI _ mappedI pgdirC⟩
          have coveredC : Mm.Covered { targetI with pgdir := pgdirC } := by
            intro vpn bound mapped
            by_cases inside : vpn ∈ pagesBetween vma.vmStart vma.vmEnd
            · exact ⟨vma, by simp [list], (has_page vma fit vpn).mp inside⟩
            · have before : target.pgdir.entry vpn ≠ none := by
                rw [← same, ← others vpn bound inside]
                exact mapped
              obtain ⟨other, listed, has⟩ := covered vpn bound before
              exact ⟨other, by simp [list, listed], has⟩
          by_cases failed : ret ≠ 0
          · simp only [if_pos failed]
            refine .inl ⟨eNoMem, memC, _, [.vma vma], rfl, .inr rfl, loadingC, coveredC, ?_⟩
            intro starves
            rcases starves_cases source fails mem target targetI vma rest inserted starves with starve | ⟨_, _, copies, _⟩
            · exact fed starve
            · rw [range] at copies
              exact failed (Prod.mk.inj (Except.ok.inj copies)).1
          · simp only [if_neg failed]
            obtain rfl := not_not.mp failed
            rcases ih memC { targetI with pgdir := pgdirC } (made ++ [.vma vma]) loadingC coveredC (by simp [split, list]) with finished | stopped
            · obtain ⟨ret', mem', target', new, ran, kind, loading', covered', fed'⟩ := finished
              refine .inl ⟨ret', mem', target', .vma vma :: new, by rw [ran]; rfl, kind, ?_, covered', ?_⟩
              · rwa [List.append_assoc] at loading'
              · intro starves
                rcases starves_cases source fails mem target targetI vma rest inserted starves with starve | ⟨memS, pgdirS, copies, later⟩
                · exact fed starve
                · rw [range] at copies
                  obtain ⟨rfl, rfl⟩ := Prod.mk.inj (Prod.mk.inj (Except.ok.inj copies)).2
                  exact fed' later
            · refine .inr ⟨by rw [stopped.1, error_bind], .next mem memC target targetI pgdirC vma rest works inserted range stopped.2⟩
        · rw [stopped.1] at range
          exact .inr ⟨by rw [range, error_bind], .here mem target targetI vma rest works inserted stopped.2⟩

end Copy

-- A fork that gave up: an error, no child, the free pages and the counts as they
-- were, and each block given back once.
structure Restored (mem : Mem) (mmCount filesCount : Nat) (forked : Forked) : Prop where
  ret : forked.ret < 0
  child : forked.child = none
  pages : forked.mem.free = mem.free
  mmCount : forked.mmCount = mmCount
  filesCount : forked.filesCount = filesCount
  blocks : forked.blocks.kfreed.Perm forked.blocks.made

theorem free_same (left right : Mem) : left.free = right.free ↔ ∀ page, left.free page = false ↔ right.free page = false := by
  constructor
  · intro same page
    rw [same]
  · intro same
    funext page
    exact (Bool.eq_iff_iff.mpr (by simpa using not_congr (same page)))

theorem free_page_ok (mem mem' : Mem) (page : Nat) (ran : mem.freePage page = .ok mem') :
    mem.free page = false ∧ mem'.free = Function.update mem.free page true := by
  unfold Mem.freePage at ran
  split at ran
  · cases ran
  · rename_i used
    obtain rfl := Except.ok.inj ran
    exact ⟨Bool.eq_false_iff.mpr used, rfl⟩

theorem free_page_used (mem : Mem) (page : Nat) (used : mem.free page = false) :
    ∃ mem', mem.freePage page = .ok mem' ∧ mem'.free = Function.update mem.free page true :=
  ⟨_, if_neg (by simp [used]), rfl⟩

-- Only a clean-up up to the kernel stack is completed by put_kstack.
theorem put_kstack_restores (fails : ForkFailures) (mem memK memC : Mem) (kstack : Nat) (got : setupKstack fails mem = some (kstack, memK)) :
    (∃ mem', putKstack memC kstack = .ok mem' ∧ mem'.free = mem.free) ↔ memC.free = memK.free := by
  obtain ⟨page, found, same⟩ := Option.map_eq_some_iff.mp got
  obtain ⟨rfl, rfl⟩ := Prod.mk.inj same
  obtain ⟨first, second⟩ := fails.fresh mem.free page found
  constructor
  · intro restored
    obtain ⟨mem', put, pages⟩ := restored
    obtain ⟨mem1, put1, put2⟩ := bind_ok put
    obtain ⟨used1, shape1⟩ := free_page_ok memC mem1 page put1
    obtain ⟨used2, shape2⟩ := free_page_ok mem1 mem' (page + 1) put2
    funext other
    by_cases atSecond : other = page + 1
    · rw [shape1] at used2
      simpa [atSecond] using used2
    · by_cases atFirst : other = page
      · simpa [atFirst] using used1
      · have here := congrFun pages other
        rw [shape2, shape1] at here
        simpa [atFirst, atSecond] using here
  · intro same
    have used1 : memC.free page = false := by simp [same]
    have used2 : memC.free (page + 1) = false := by simp [same]
    obtain ⟨mem1, put1, shape1⟩ := free_page_used memC page used1
    obtain ⟨mem', put2, shape2⟩ := free_page_used mem1 (page + 1) (by simp [shape1, used2])
    refine ⟨mem', by rw [putKstack, put1, ok_bind, put2], ?_⟩
    rw [shape2, shape1]
    funext other
    by_cases atSecond : other = page + 1
    · simp [atSecond, second]
    · by_cases atFirst : other = page
      · simp [atFirst, first]
      · simp [atFirst, atSecond, same]

section Fork

variable (fails : ForkFailures) (mem : Mem) (nrProcess pid : Int) (oldmm : Option Mm) (mmCount filesCount : Nat) (cloneVm cloneFs : Bool)

def ForksOrRestores : Prop := ∃ forked, doFork fails mem nrProcess pid oldmm mmCount filesCount cloneVm cloneFs = .ok forked ∧
  (forked.child.isSome = true ∨ Restored mem mmCount filesCount forked)

-- The fork has a kernel stack.
structure GotStack (kstack : Nat) (memK : Mem) : Prop where
  room : nrProcess < Proc.maxProcess
  proc : fails.procStruct = false
  stack : setupKstack fails mem = some (kstack, memK)

-- The fork comes to the areas of its parent.
structure CopiesAreas (old mm0 : Mm) (mem0 : Mem) : Prop where
  parent : oldmm = some old
  own : cloneVm = false
  works : fails.mmStruct = false
  created : ∃ kstack memK, GotStack fails mem nrProcess kstack memK ∧ mmCreate memK = some (mm0, mem0)

-- What must hold at the points of the fork. copy_files must not fail behind a
-- copy_mm that has done something, since nothing takes that back.
structure CanRestore : Prop where
  fed : ∀ old mm0 mem0, CopiesAreas fails mem nrProcess oldmm cloneVm old mm0 mem0 →
    ¬ Starves old.pgdir fails mem0 mm0 old.mmapList.reverse
  closes : ∀ old mm0 mem0 mem' mm' made, CopiesAreas fails mem nrProcess oldmm cloneVm old mm0 mem0 →
    dupMmapOr fails mem0 mm0 old.pgdir old.mmapList.reverse = .ok (eNoMem, mem', mm', made) → mm'.TablesClose
  files : ∀ kstack memK mem' mm' count blocks, GotStack fails mem nrProcess kstack memK →
    copyMm fails memK oldmm mmCount cloneVm = .ok (0, mem', mm', count, blocks) → cloneFs = false → fails.filesStruct = true → oldmm = none

section Got

variable (kstack : Nat) (memK mem' : Mem) (got : GotStack fails mem nrProcess kstack memK)

include got

theorem fork_asserts (fault : Fault) (stopped : copyMm fails memK oldmm mmCount cloneVm = .error fault) :
    ¬ ForksOrRestores fails mem nrProcess pid oldmm mmCount filesCount cloneVm cloneFs := by
  rintro ⟨forked, ran, _⟩
  simp only [doFork, if_neg (not_le.mpr got.room), got.proc, got.stack, stopped, error_bind, Bool.false_eq_true, if_false] at ran
  cases ran

theorem fork_done (held : 0 < filesCount) (child : Option Mm) (count : Nat) (blocks : Blocks Block)
    (copied : copyMm fails memK oldmm mmCount cloneVm = .ok (0, mem', child, count, blocks)) (files : cloneFs = true ∨ fails.filesStruct = false) :
    ForksOrRestores fails mem nrProcess pid oldmm mmCount filesCount cloneVm cloneFs := by
  have filesDone : ∃ taken kept, copyFiles fails filesCount cloneFs = .ok (0, taken, kept) := by
    cases shared : cloneFs with
    | true => exact ⟨_, _, rfl⟩
    | false =>
        have works : fails.filesStruct = false := files.resolve_left (by simp [shared])
        have positive : decide (0 < filesCount) = true := decide_eq_true held
        refine ⟨filesCount, [.files], ?_⟩
        simp only [copyFiles, works, positive, check_true, ok_bind, pure_ok, Bool.false_eq_true, if_false]
  obtain ⟨taken, kept, filesDone⟩ := filesDone
  refine ⟨⟨pid, mem', count, taken, ⟨.proc :: blocks.made.map .memory ++ kept, blocks.kfreed.map .memory⟩, some ⟨kstack, child⟩⟩, ?_, .inl rfl⟩
  simp only [doFork, if_neg (not_le.mpr got.room), got.proc, got.stack, copied, filesDone, ok_bind, pure_ok, Bool.false_eq_true, if_false, ne_eq,
    not_true_eq_false]

-- A fork that goes to bad_fork_cleanup_kstack restores what the steps before it restored.
theorem fork_given_back (ret : Int) (count : Nat) (made kfreed : List Block)
    (ends : doFork fails mem nrProcess pid oldmm mmCount filesCount cloneVm cloneFs = (putKstack mem' kstack).map fun memF =>
      ⟨ret, memF, count, filesCount, ⟨.proc :: made.map .memory, kfreed.map .memory ++ [.proc]⟩, none⟩) :
    ForksOrRestores fails mem nrProcess pid oldmm mmCount filesCount cloneVm cloneFs ↔
      ret < 0 ∧ mem'.free = memK.free ∧ count = mmCount ∧ kfreed.Perm made := by
  have same : (kfreed.map ForkBlock.memory ++ [ForkBlock.proc]).Perm (ForkBlock.proc :: made.map .memory) ↔ kfreed.Perm made := by
    rw [(List.perm_append_singleton _ _).congr_left, List.perm_cons, List.map_perm_map_iff fun left right equal => ForkBlock.memory.inj equal]
  rw [← put_kstack_restores fails mem memK mem' kstack got.stack, ForksOrRestores, ends]
  constructor
  · rintro ⟨forked, ran, outcome⟩
    cases put : putKstack mem' kstack with
    | error fault =>
        rw [put] at ran
        cases ran
    | ok memF =>
        rw [put] at ran
        obtain rfl := Except.ok.inj ran
        rcases outcome with child | restored
        · cases child
        · exact ⟨restored.ret, ⟨memF, rfl, restored.pages⟩, restored.mmCount, same.mp restored.blocks⟩
  · rintro ⟨negative, ⟨memF, put, pages⟩, counted, blocks⟩
    exact ⟨_, by rw [put]; rfl, .inr ⟨negative, rfl, pages, counted, rfl, same.mpr blocks⟩⟩

theorem memory_given_back (ret : Int) (bad : ret ≠ 0) (child : Option Mm) (count : Nat) (made kfreed : List Block)
    (copied : copyMm fails memK oldmm mmCount cloneVm = .ok (ret, mem', child, count, ⟨made, kfreed⟩)) :
    ForksOrRestores fails mem nrProcess pid oldmm mmCount filesCount cloneVm cloneFs ↔
      ret < 0 ∧ mem'.free = memK.free ∧ count = mmCount ∧ kfreed.Perm made := by
  refine fork_given_back fails mem nrProcess pid oldmm mmCount filesCount cloneVm cloneFs kstack memK mem' got ret count made kfreed ?_
  simp only [doFork, if_neg (not_le.mpr got.room), got.proc, got.stack, copied, ok_bind, Bool.false_eq_true, if_false, if_pos bad]
  cases putKstack mem' kstack <;> rfl

theorem files_given_back (child : Option Mm) (count : Nat) (made kfreed : List Block)
    (copied : copyMm fails memK oldmm mmCount cloneVm = .ok (0, mem', child, count, ⟨made, kfreed⟩)) (unshared : cloneFs = false)
    (fail : fails.filesStruct = true) : ForksOrRestores fails mem nrProcess pid oldmm mmCount filesCount cloneVm cloneFs ↔
      mem'.free = memK.free ∧ count = mmCount ∧ kfreed.Perm made := by
  have back := fork_given_back fails mem nrProcess pid oldmm mmCount filesCount cloneVm cloneFs kstack memK mem' got eNoMem count made kfreed ?_
  · rw [back]
    exact and_iff_right (by decide)
  · simp only [doFork, if_neg (not_le.mpr got.room), got.proc, got.stack, copied, copyFiles, unshared, fail, ok_bind, pure_ok, Bool.false_eq_true,
      if_false, if_true, ne_eq, not_true_eq_false, if_pos (show eNoMem ≠ 0 by decide)]
    cases putKstack mem' kstack <;> rfl

-- What is left to look at where copy_mm is done.
theorem memory_done (held : 0 < filesCount) (child : Option Mm) (count : Nat) (made kfreed : List Block)
    (copied : copyMm fails memK oldmm mmCount cloneVm = .ok (0, mem', child, count, ⟨made, kfreed⟩)) :
    ForksOrRestores fails mem nrProcess pid oldmm mmCount filesCount cloneVm cloneFs ↔
      (cloneFs = false → fails.filesStruct = true → mem'.free = memK.free ∧ count = mmCount ∧ kfreed.Perm made) := by
  by_cases fine : cloneFs = true ∨ fails.filesStruct = false
  · refine iff_of_true (fork_done fails mem nrProcess pid oldmm mmCount filesCount cloneVm cloneFs kstack memK mem' got held child count _
      copied fine) fun unshared fail => ?_
    rcases fine with shared | works
    · rw [unshared] at shared
      cases shared
    · rw [works] at fail
      cases fail
  · obtain ⟨notShared, notWorks⟩ := not_or.mp fine
    have unshared : cloneFs = false := Bool.eq_false_iff.mpr notShared
    have fail : fails.filesStruct = true := Bool.eq_true_of_not_eq_false notWorks
    rw [files_given_back fails mem nrProcess pid oldmm mmCount filesCount cloneVm cloneFs kstack memK mem' got child count made kfreed copied
      unshared fail]
    exact ⟨fun back _ _ => back, fun back => back unshared fail⟩

end Got

-- The areas are copied, or the clean-up of copy_mm is a complete one.
theorem copy_mm_dup (memK mem0 mem' : Mem) (mm0 mm' old : Mm) (ret : Int) (made : List Block) (works : fails.mmStruct = false)
    (created : mmCreate memK = some (mm0, mem0))
    (dup : dupMmapOr fails mem0 mm0 old.pgdir old.mmapList.reverse = .ok (ret, mem', mm', made)) :
    (ret = 0 → copyMm fails memK (some old) mmCount false = .ok (0, mem', some mm', mmCount, ⟨.mm :: made, []⟩)) ∧
    (ret ≠ 0 → ∀ memX mmX memP, exitMmap mem' mm' = .ok (memX, mmX) → putPgdir memX mmX = .ok memP →
      copyMm fails memK (some old) mmCount false = .ok (ret, memP, none, mmCount, ⟨.mm :: made, mmDestroy mmX⟩)) ∧
    (ret ≠ 0 → (¬ ∃ memX mmX memP, exitMmap mem' mm' = .ok (memX, mmX) ∧ putPgdir memX mmX = .ok memP) →
      ∃ fault, copyMm fails memK (some old) mmCount false = .error fault) := by
  refine ⟨fun done => ?_, fun bad memX mmX memP exited put => ?_, fun bad stuck => ?_⟩
  · simp only [copyMm, works, created, dup, done, ok_bind, pure_ok, Bool.false_eq_true, if_false, ne_eq, not_true_eq_false]
  · simp only [copyMm, works, created, dup, exited, put, ok_bind, pure_ok, Bool.false_eq_true, if_false, if_pos bad]
  · simp only [copyMm, works, created, dup, ok_bind, pure_ok, Bool.false_eq_true, if_false, if_pos bad]
    cases exited : exitMmap mem' mm' with
    | error fault => exact ⟨fault, rfl⟩
    | ok result =>
        obtain ⟨memX, mmX⟩ := result
        cases put : putPgdir memX mmX with
        | error fault => exact ⟨fault, by simp only [ok_bind, put, error_bind]⟩
        | ok memP => exact absurd ⟨memX, mmX, memP, exited, put⟩ stuck

theorem dup_failed (memK mem0 mem' : Mem) (mm0 mm' old : Mm) (ret : Int) (made : List Block) (works : fails.mmStruct = false)
    (created : mmCreate memK = some (mm0, mem0))
    (dup : dupMmapOr fails mem0 mm0 old.pgdir old.mmapList.reverse = .ok (ret, mem', mm', made)) (bad : ret ≠ 0)
    (result : Mem × Option Mm × Nat × Blocks Block) : copyMm fails memK (some old) mmCount false ≠ .ok (0, result) := by
  intro copied
  obtain ⟨_, cleaned, stops⟩ := copy_mm_dup fails mmCount memK mem0 mem' mm0 mm' old ret made works created dup
  by_cases runs : ∃ memX mmX memP, exitMmap mem' mm' = .ok (memX, mmX) ∧ putPgdir memX mmX = .ok memP
  · obtain ⟨memX, mmX, memP, exited, put⟩ := runs
    rw [cleaned bad memX mmX memP exited put] at copied
    exact bad (Prod.mk.inj (Except.ok.inj copied)).1
  · obtain ⟨fault, stopped⟩ := stops bad runs
    rw [stopped] at copied
    cases copied

theorem got_same (kstack other : Nat) (memK memO : Mem) (got : GotStack fails mem nrProcess kstack memK)
    (again : GotStack fails mem nrProcess other memO) : kstack = other ∧ memK = memO :=
  Prod.mk.inj (Option.some.inj (got.stack.symm.trans again.stack))

theorem stack_clean (kstack : Nat) (memK : Mem) (clean : ∀ page, mem.free page = true → mem.ref page = 0)
    (got : GotStack fails mem nrProcess kstack memK) : ∀ page, memK.free page = true → memK.ref page = 0 := by
  obtain ⟨first, _, same⟩ := Option.map_eq_some_iff.mp got.stack
  obtain ⟨rfl, rfl⟩ := Prod.mk.inj same
  intro page free
  refine clean page ?_
  by_cases atSecond : page = first + 1
  · simp [atSecond] at free
  · by_cases atFirst : page = first
    · simp [atFirst] at free
    · simpa [atFirst, atSecond] using free

-- A copy of the areas that gave up is taken back if and only if the tables close.
theorem dup_taken_back (kstack : Nat) (memK mem0 mem' : Mem) (mm0 mm' old : Mm) (made : List Block) (foreign : Nat → Prop)
    (got : GotStack fails mem nrProcess kstack memK) (works : fails.mmStruct = false) (created : mmCreate memK = some (mm0, mem0))
    (dup : dupMmapOr fails mem0 mm0 old.pgdir old.mmapList.reverse = .ok (eNoMem, mem', mm', made)) (loading : Loading mem' mm' made foreign)
    (covered : mm'.Covered) (claimed : ∀ page, foreign page ↔ memK.free page = false) :
    ForksOrRestores fails mem nrProcess pid (some old) mmCount filesCount false cloneFs ↔ mm'.TablesClose := by
  have bad : eNoMem ≠ 0 := by decide
  obtain ⟨_, cleaned, stops⟩ := copy_mm_dup fails mmCount memK mem0 mem' mm0 mm' old eNoMem made works created dup
  have exact := exits_clean_iff mem' mm' foreign loading.built.image.space loading.mapped.areas loading.built.referenced
  rw [← and_iff_right (a := mm'.Covered) (b := mm'.TablesClose) covered, ← exact]
  by_cases runs : ∃ memX mmX memP, exitMmap mem' mm' = .ok (memX, mmX) ∧ putPgdir memX mmX = .ok memP
  · obtain ⟨memX, mmX, memP, exited, put⟩ := runs
    rw [memory_given_back fails mem nrProcess pid (some old) mmCount filesCount false cloneFs kstack memK memP got eNoMem bad none mmCount _ _
      (cleaned bad memX mmX memP exited put), free_same]
    constructor
    · rintro ⟨_, same, _⟩
      exact ⟨memX, mmX, memP, exited, put, fun page => (same page).trans (claimed page).symm⟩
    · rintro ⟨memO, mmO, memQ, exitedO, putO, used⟩
      rw [exited] at exitedO
      obtain ⟨rfl, rfl⟩ := Prod.mk.inj (Except.ok.inj exitedO)
      rw [put] at putO
      obtain rfl := Except.ok.inj putO
      refine ⟨by decide, fun page => (used page).trans (claimed page), rfl, ?_⟩
      rw [mmDestroy, exit_mmap_list mem' memX mm' mmX exited]
      exact (List.perm_append_singleton _ _).trans (loading.mapped.blocks.symm.cons _)
  · obtain ⟨fault, stopped⟩ := stops bad runs
    refine iff_of_false (fork_asserts fails mem nrProcess pid (some old) mmCount filesCount false cloneFs kstack memK got fault stopped) ?_
    rintro ⟨memX, mmX, memP, exited, put, _⟩
    exact runs ⟨memX, mmX, memP, exited, put⟩

theorem created_covered (memK mem0 : Mem) (mm0 : Mm) (created : mmCreate memK = some (mm0, mem0)) : mm0.mmapList = [] ∧ mm0.Covered := by
  obtain ⟨result, _, same⟩ := Option.map_eq_some_iff.mp created
  obtain ⟨rfl, rfl⟩ := Prod.mk.inj same
  exact ⟨rfl, fun vpn _ mapped => absurd rfl mapped⟩

-- The fork of a process with areas of its own.
theorem own_copy_iff (kstack : Nat) (memK mem0 : Mem) (mm0 old : Mm) (clean : ∀ page, mem.free page = true → mem.ref page = 0)
    (areas : Areas old.mmapList) (held : 0 < filesCount) (got : GotStack fails mem nrProcess kstack memK) (works : fails.mmStruct = false)
    (created : mmCreate memK = some (mm0, mem0)) : ForksOrRestores fails mem nrProcess pid (some old) mmCount filesCount false cloneFs ↔
      CanRestore fails mem nrProcess (some old) mmCount false cloneFs := by
  have at' : CopiesAreas fails mem nrProcess (some old) false old mm0 mem0 := ⟨rfl, rfl, works, kstack, memK, got, created⟩
  have only : ∀ other mmO memO, CopiesAreas fails mem nrProcess (some old) false other mmO memO → other = old ∧ mmO = mm0 ∧ memO = mem0 := by
    intro other mmO memO copies
    obtain ⟨stack, memS, again, createdO⟩ := copies.created
    obtain ⟨rfl, rfl⟩ := got_same fails mem nrProcess kstack stack memK memS got again
    rw [created] at createdO
    obtain ⟨rfl, rfl⟩ := Prod.mk.inj (Option.some.inj createdO)
    exact ⟨(Option.some.inj copies.parent).symm, rfl, rfl⟩
  obtain ⟨foreign, loading, claimed⟩ := created_loading memK mem0 mm0 (stack_clean fails mem nrProcess kstack memK clean got) created
  obtain ⟨nothing, covered⟩ := created_covered memK mem0 mm0 created
  rcases dup_loading foreign old.pgdir fails old.mmapList areas old.mmapList.reverse mem0 mm0 [] loading covered (by simp [nothing])
    with finished | ⟨stopped, starves⟩
  · obtain ⟨ret, mem', mm', made, dup, kind, loading', covered', fed⟩ := finished
    rw [List.nil_append] at loading'
    obtain ⟨copied, _, _⟩ := copy_mm_dup fails mmCount memK mem0 mem' mm0 mm' old ret made works created dup
    rcases kind with rfl | rfl
    · rw [memory_done fails mem nrProcess pid (some old) mmCount filesCount false cloneFs kstack memK mem' got held (some mm') mmCount _ _
        (copied rfl)]
      constructor
      · intro back
        refine ⟨fun other mmO memO copies => ?_, fun other mmO memO memD mmD madeD copies again => ?_, fun stack memS memD child count blocks
          again copiedD unshared fail => ?_⟩
        · obtain ⟨rfl, rfl, rfl⟩ := only other mmO memO copies
          exact fed
        · obtain ⟨rfl, rfl, rfl⟩ := only other mmO memO copies
          rw [dup] at again
          exact absurd (Prod.mk.inj (Except.ok.inj again)).1 (by decide)
        · have lost := (back unshared fail).2.2.length_eq
          simp at lost
      · intro can unshared fail
        exact absurd (can.files kstack memK mem' _ _ _ got (copied rfl) unshared fail) (by simp)
    · rw [dup_taken_back fails mem nrProcess pid mmCount filesCount cloneFs kstack memK mem0 mem' mm0 mm' old made foreign got works created dup
        loading' covered' claimed]
      constructor
      · intro closes
        refine ⟨fun other mmO memO copies => ?_, fun other mmO memO memD mmD madeD copies again => ?_, fun stack memS memD child count blocks
          again copiedD unshared fail => ?_⟩
        · obtain ⟨rfl, rfl, rfl⟩ := only other mmO memO copies
          exact fed
        · obtain ⟨rfl, rfl, rfl⟩ := only other mmO memO copies
          rw [dup] at again
          obtain ⟨rfl, rfl, _⟩ := Prod.mk.inj (Prod.mk.inj (Except.ok.inj again)).2 |>.imp_right Prod.mk.inj
          exact closes
        · obtain ⟨rfl, rfl⟩ := got_same fails mem nrProcess kstack stack memK memS got again
          exact absurd copiedD (dup_failed fails mmCount memK mem0 mem' mm0 mm' old eNoMem made works created dup (by decide) _)
      · intro can
        exact can.closes old mm0 mem0 mem' mm' made at' dup
  · refine iff_of_false ?_ fun can => can.fed old mm0 mem0 at' starves
    refine fork_asserts fails mem nrProcess pid (some old) mmCount filesCount false cloneFs kstack memK got .assertFailed ?_
    simp only [copyMm, works, created, stopped, error_bind, Bool.false_eq_true, if_false]

theorem got_iff (kstack : Nat) (memK : Mem) (clean : ∀ page, mem.free page = true → mem.ref page = 0)
    (areas : ∀ old, oldmm = some old → Areas old.mmapList) (held : 0 < filesCount) (got : GotStack fails mem nrProcess kstack memK) :
    ForksOrRestores fails mem nrProcess pid oldmm mmCount filesCount cloneVm cloneFs ↔
      CanRestore fails mem nrProcess oldmm mmCount cloneVm cloneFs := by
  cases oldmm with
  | none =>
      have copied : copyMm fails memK none mmCount cloneVm = .ok (0, memK, none, mmCount, ⟨[], []⟩) := rfl
      rw [memory_done fails mem nrProcess pid none mmCount filesCount cloneVm cloneFs kstack memK memK got held none mmCount [] [] copied]
      exact iff_of_true (fun _ _ => ⟨rfl, rfl, .refl _⟩)
        ⟨fun old mm0 mem0 copies => (by cases copies.parent), fun old mm0 mem0 _ _ _ copies _ => (by cases copies.parent),
          fun _ _ _ _ _ _ _ _ _ _ => rfl⟩
  | some old =>
      cases cloneVm with
      | true =>
          have copied : copyMm fails memK (some old) mmCount true = .ok (0, memK, some old, mmCount + 1, ⟨[], []⟩) := rfl
          rw [memory_done fails mem nrProcess pid (some old) mmCount filesCount true cloneFs kstack memK memK got held (some old) (mmCount + 1)
            [] [] copied]
          constructor
          · intro back
            refine ⟨fun other mm0 mem0 copies => (by cases copies.own), fun other mm0 mem0 _ _ _ copies _ => (by cases copies.own),
              fun stack memS memD child count blocks again copiedD unshared fail => ?_⟩
            have counted := (back unshared fail).2.1
            omega
          · intro can unshared fail
            cases can.files kstack memK memK _ _ _ got copied unshared fail
      | false =>
          have stays : ∀ made kfreed, copyMm fails memK (some old) mmCount false = .ok (eNoMem, memK, none, mmCount, ⟨made, kfreed⟩) →
              kfreed.Perm made → (∀ mm0 mem0, fails.mmStruct = false → mmCreate memK ≠ some (mm0, mem0)) →
              (ForksOrRestores fails mem nrProcess pid (some old) mmCount filesCount false cloneFs ↔
                CanRestore fails mem nrProcess (some old) mmCount false cloneFs) := by
            intro made kfreed copied same uncreated
            have away : ∀ other mm0 mem0, ¬ CopiesAreas fails mem nrProcess (some old) false other mm0 mem0 := by
              intro other mm0 mem0 copies
              obtain ⟨stack, memS, again, created⟩ := copies.created
              obtain ⟨rfl, rfl⟩ := got_same fails mem nrProcess kstack stack memK memS got again
              exact uncreated mm0 mem0 copies.works created
            rw [memory_given_back fails mem nrProcess pid (some old) mmCount filesCount false cloneFs kstack memK memK got eNoMem (by decide)
              none mmCount made kfreed copied]
            refine iff_of_true ⟨by decide, rfl, rfl, same⟩ ⟨fun other mm0 mem0 copies => absurd copies (away other mm0 mem0),
              fun other mm0 mem0 _ _ _ copies _ => absurd copies (away other mm0 mem0), fun stack memS memD child count blocks again copiedD _ _ => ?_⟩
            obtain ⟨rfl, rfl⟩ := got_same fails mem nrProcess kstack stack memK memS got again
            rw [copied] at copiedD
            exact absurd (Prod.mk.inj (Except.ok.inj copiedD)).1 (by decide)
          cases works : fails.mmStruct with
          | true =>
              refine stays [] [] ?_ (.refl _) fun mm0 mem0 fine => ?_
              · simp only [copyMm, works, Bool.false_eq_true, if_false, if_true]
              · rw [works] at fine
                cases fine
          | false =>
              cases created : mmCreate memK with
              | none =>
                  refine stays [.mm] [.mm] ?_ (.refl _) fun mm0 mem0 _ made => ?_
                  · simp only [copyMm, works, created, Bool.false_eq_true, if_false]
                  · rw [created] at made
                    cases made
              | some result =>
                  obtain ⟨mm0, mem0⟩ := result
                  exact own_copy_iff fails mem nrProcess pid mmCount filesCount cloneFs kstack memK mem0 mm0 old clean (areas old rfl) held got works
                    created

theorem fork_iff (clean : ∀ page, mem.free page = true → mem.ref page = 0) (areas : ∀ old, oldmm = some old → Areas old.mmapList)
    (held : 0 < filesCount) : ForksOrRestores fails mem nrProcess pid oldmm mmCount filesCount cloneVm cloneFs ↔
      CanRestore fails mem nrProcess oldmm mmCount cloneVm cloneFs := by
  by_cases got : ∃ kstack memK, GotStack fails mem nrProcess kstack memK
  · obtain ⟨kstack, memK, got⟩ := got
    exact got_iff fails mem nrProcess pid oldmm mmCount filesCount cloneVm cloneFs kstack memK clean areas held got
  · have can : CanRestore fails mem nrProcess oldmm mmCount cloneVm cloneFs := by
      refine ⟨fun old mm0 mem0 copies => ?_, fun old mm0 mem0 _ _ _ copies _ => ?_, fun kstack memK _ _ _ _ here _ _ _ =>
        absurd ⟨kstack, memK, here⟩ got⟩
      · obtain ⟨kstack, memK, here, _⟩ := copies.created
        exact absurd ⟨kstack, memK, here⟩ got
      · obtain ⟨kstack, memK, here, _⟩ := copies.created
        exact absurd ⟨kstack, memK, here⟩ got
    refine iff_of_true ?_ can
    have unchanged : ∀ (ret : Int) (made kfreed : List ForkBlock), ret < 0 → kfreed.Perm made →
        Restored mem mmCount filesCount ⟨ret, mem, mmCount, filesCount, ⟨made, kfreed⟩, none⟩ :=
      fun _ _ _ negative same => ⟨negative, rfl, rfl, rfl, rfl, same⟩
    rw [ForksOrRestores]
    by_cases full : Proc.maxProcess ≤ nrProcess
    · exact ⟨_, by rw [doFork, if_pos full], .inr (unchanged eNoFreeProc [] [] (by decide) (.refl _))⟩
    · cases proc : fails.procStruct with
      | true =>
          refine ⟨⟨eNoMem, mem, mmCount, filesCount, ⟨[], []⟩, none⟩, ?_, .inr (unchanged eNoMem [] [] (by decide) (.refl _))⟩
          simp only [doFork, if_neg full, proc, if_true]
      | false =>
          cases stack : setupKstack fails mem with
          | none =>
              refine ⟨⟨eNoMem, mem, mmCount, filesCount, ⟨[.proc], [.proc]⟩, none⟩, ?_,
                .inr (unchanged eNoMem [.proc] [.proc] (by decide) (.refl _))⟩
              simp only [doFork, if_neg full, proc, stack, Bool.false_eq_true, if_false]
          | some result => exact absurd ⟨result.1, result.2, not_le.mp full, proc, stack⟩ got

end Fork

variable {m : Nat}

theorem shared_clean (mem : Mem) (pgdirs : Fin m → Option Pgdir) (kernel : Nat → Prop) (shared : Shared mem pgdirs kernel) :
    ∀ page, mem.free page = true → mem.ref page = 0 := by
  intro page free
  have unused : ¬ mem.free page = false := by simp [free]
  rw [shared.refs page (fun table => unused (shared.tables page table).1) fun here => unused (shared.kernelUsed page here)]
  by_contra mapped
  exact unused (shared.mapped page (by omega)).1

-- In every reachable state of the address spaces a fork, of a kernel thread or of a
-- process with one of them, has a child or restores everything just when it can.
theorem fork_restores_iff (start : Mem) (boot : ∀ page, start.free page = true → start.ref page = 0) (spaceCalls : List (SpaceCall m))
    (spaces : Spaces m) (ran : run Spaces.step (Spaces.boot start) spaceCalls = some spaces) (oldmm : Option Mm)
    (known : ∀ old, oldmm = some old → ∃ i, spaces.mms i = some old) (fails : ForkFailures) (nrProcess pid : Int) (mmCount filesCount : Nat)
    (held : 0 < filesCount) (cloneVm cloneFs : Bool) :
    ForksOrRestores fails spaces.mem nrProcess pid oldmm mmCount filesCount cloneVm cloneFs ↔
      CanRestore fails spaces.mem nrProcess oldmm mmCount cloneVm cloneFs := by
  have inv := Spaces.run_inv start boot spaceCalls spaces ran
  refine fork_iff fails spaces.mem nrProcess pid oldmm mmCount filesCount cloneVm cloneFs (shared_clean _ _ _ inv.shared) ?_ held
  intro old here
  obtain ⟨i, atOld⟩ := known old here
  exact inv.areas i old atOld

-- The files_struct of a thread fails, which has the memory of its parent by then.
def noFilesStruct : ForkFailures where
  procStruct := false
  mmStruct := false
  vmaStruct := fun _ => false
  filesStruct := true
  kstack := fun free => if free 62 && free 63 then some 62 else none
  fresh := by
    intro free page found
    split at found
    · rename_i both
      obtain rfl := Option.some.inj found
      exact Bool.and_eq_true_iff.mp both
    · cases found

theorem fork_restores_not : ∃ (spaces : Spaces 2) (old : Mm), run Spaces.step (Spaces.boot Frames.smallMem) forkCalls = some spaces ∧
    spaces.mms 0 = some old ∧ ¬ ForksOrRestores noFilesStruct spaces.mem 2 7 (some old) 1 1 true false := by
  cases ran : run Spaces.step (Spaces.boot Frames.smallMem) forkCalls with
  | none =>
      have returns : (run Spaces.step (Spaces.boot Frames.smallMem) forkCalls).isSome := by decide +kernel
      simp [ran] at returns
  | some spaces =>
      have facts : (run Spaces.step (Spaces.boot Frames.smallMem) forkCalls).all
          (fun spaces => (spaces.mms 0).isSome && (spaces.mem.free 62 && spaces.mem.free 63)) = true := by decide +kernel
      rw [ran, Option.all_some, Bool.and_eq_true, Option.isSome_iff_exists] at facts
      obtain ⟨⟨old, here⟩, free⟩ := facts
      refine ⟨spaces, old, rfl, here, ?_⟩
      rw [fork_restores_iff Frames.smallMem (fun _ _ => rfl) forkCalls spaces ran (some old) (fun other same => ⟨0, by rw [here, same]⟩)
        noFilesStruct 2 7 1 1 (by decide) true false]
      intro can
      have stack : noFilesStruct.kstack spaces.mem.free = some 62 := if_pos free
      have got : ∃ memK, GotStack noFilesStruct spaces.mem 2 62 memK := ⟨_, by decide, rfl, by rw [setupKstack, stack]; rfl⟩
      obtain ⟨memK, got⟩ := got
      cases can.files 62 memK memK _ _ _ got rfl rfl rfl

end Ucore.Exec
