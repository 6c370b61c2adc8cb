import Ucore.Vmm.RangeWalk

set_option autoImplicit false

namespace Ucore.Vmm

open Ucore.Lib

theorem returned_trans (before between after : Nat → Nat) (first second : List Nat) (late : Returned between after second)
    (early : Returned before between first) (gone : ∀ page, between page = 0 → after page = 0) (fewer : ∀ page, before page = 0 → between page = 0) :
    Returned before after (second ++ first) := by
  intro page
  rw [List.count_append, early page, late page]
  have goneHere := gone page
  have fewerHere := fewer page
  by_cases start : 0 < before page
  · by_cases middle : between page = 0
    · simp [start, middle, goneHere middle]
    · simp [start, middle, Nat.pos_of_ne_zero middle]
  · have zero := fewerHere (by omega)
    simp [start, zero]

section Unmap

variable (foreign : Nat → Prop) (outside : Nat → Nat)

-- Unmapping pages keeps the tables, and gives back each page whose last mapping goes.
theorem unmap_pages_spec (vpns : List Nat) (mem : Mem) (pgdir : Pgdir) (space : Space mem pgdir foreign outside)
    (small : ∀ vpn ∈ vpns, vpn < nPages) : ∃ mem' pgdir', unmapPages mem pgdir vpns = .ok (mem', pgdir') ∧
      Space mem' pgdir' foreign outside ∧ (∀ a, pgdir'.pageAt a = pgdir.pageAt a) ∧
      (∀ vpn, vpn < nPages → pgdir'.entry vpn = if vpn ∈ vpns then none else pgdir.entry vpn) ∧
      ∃ log, mem'.freed = log ++ mem.freed ∧
        Returned (fun page => pgdir.count page + outside page) (fun page => pgdir'.count page + outside page) log := by
  induction vpns generalizing mem pgdir with
  | nil =>
      exact ⟨mem, pgdir, rfl, space, fun _ => rfl, fun vpn _ => by simp, [], rfl, returned_nothing _ _ fun _ positive => positive⟩
  | cons vpn rest ih =>
      have here := small vpn (by simp)
      have smallRest : ∀ other ∈ rest, other < nPages := fun other inside => small other (by simp [inside])
      have index : vpn * pgSize / pgSize < nPages := by rwa [page_index]
      cases entry : (pgdir.lookup (vpn * pgSize)).join with
      | none =>
          obtain ⟨mem', pgdir', ran, space', pages, entries, log, freed, returned⟩ := ih mem pgdir space smallRest
          refine ⟨mem', pgdir', ?_, space', pages, fun other bound => ?_, log, freed, returned⟩
          · rw [unmapPages, no_remove mem pgdir (vpn * pgSize) entry]
            exact ran
          · have absent : pgdir.entry vpn = none := entry
            rw [entries other bound]
            by_cases same : other = vpn
            · subst same
              simp [absent]
            · simp [same]
      | some pte =>
          have found := Option.join_eq_some_iff.mp entry
          have removed := page_remove_pte_ok mem pgdir foreign outside space (vpn * pgSize) pte found index
          have spaceR := page_remove_pte_space mem pgdir foreign outside space (vpn * pgSize) pte found index
          have returnedR := remove_returned mem pgdir foreign outside space (vpn * pgSize) index pte found
          obtain ⟨mem', pgdir', ran, space', pages, entries, log, freed, returned⟩ := ih _ _ spaceR smallRest
          refine ⟨mem', pgdir', ?_, space', fun a => ?_, fun other bound => ?_, log ++ _, ?_, returned_trans _ _ _ _ log returned
            returnedR (fun page zero => ?_) (fun page zero => ?_)⟩
          · rw [unmapPages, removed]
            exact ran
          · rw [pages, set_pte_page]
          · rw [entries other bound, set_pte_entry pgdir _ none _ found index other bound, page_index]
            by_cases same : other = vpn
            · simp [same]
            · simp [same]
          · rw [freed, drop_freed, List.append_assoc]
          · have left : pgdir'.count page = 0 := by
              by_contra some
              obtain ⟨other, bound, maps⟩ := (count_pos pgdir' page).mp (Nat.pos_of_ne_zero some)
              have before : (pgdir.setPte (vpn * pgSize) none).Maps page other := by
                rw [Pgdir.Maps, entries other bound] at maps
                by_cases listed : other ∈ rest
                · simp [listed] at maps
                · rwa [if_neg listed] at maps
              have positive := (count_pos _ page).mpr ⟨other, bound, before⟩
              omega
            omega
          · have changed := removed_count pgdir _ pte found index page
            omega

end Unmap

theorem space_phys (mem : Mem) (pgdir : Pgdir) (foreign : Nat → Prop) (outside : Nat → Nat) (space : Space mem pgdir foreign outside)
    (phys : Bytes) : Space { mem with phys := phys } pgdir foreign outside :=
  ⟨space.once, space.tables, space.mapped, space.refs, space.foreignUsed, space.outsideUsed⟩

theorem drop_phys (mem : Mem) (page : Nat) : (mem.dropRef page).phys = mem.phys := by
  unfold Mem.dropRef
  split <;> rfl

theorem swap_phys (mem : Mem) (page : Nat) (old : Option Pte) : (mem.swapRef page old).phys = mem.phys := by
  cases old with
  | none => rfl
  | some pte => exact drop_phys _ pte.ppn

theorem page_byte (page i : Nat) (bound : i < pgSize) : (page * pgSize + i) / pgSize = page := by
  simp only [pgSize] at bound ⊢
  omega

-- A byte that is in no free page keeps its value when a page that was free is filled.
theorem fill_phys (phys src : Bytes) (page addr : Nat) (apart : addr / pgSize ≠ page) :
    memcpy phys (page * pgSize) src pgSize addr = phys addr := by
  refine memcpy_outside phys src (page * pgSize) pgSize addr ?_
  by_contra inside
  refine apart ?_
  simp only [pgSize] at inside ⊢
  omega

-- One page of a copy: the target maps a page that was free before, with the
-- bytes and the permissions of the source.
structure Copied (mem mem' : Mem) (target' : Pgdir) (pte : Pte) (vpn : Nat) (npage : Nat) : Prop where
  fresh : mem.free npage = true
  entry : target'.entry vpn = some (pteCreate npage (pteV ||| (pte.flags &&& pteUser)))
  ref : mem'.ref npage = 1
  used : mem'.free npage = false
  bytes : mem.free pte.ppn = false → ∀ i, i < pgSize → mem'.phys (npage * pgSize + i) = mem.phys (pte.ppn * pgSize + i)

section Copy

variable (mem : Mem) (target source : Pgdir) (foreign : Nat → Prop) (outside : Nat → Nat) (space : Space mem target foreign outside)
  (vpn : Nat) (small : vpn < nPages)

include space small

theorem copy_page_spec (ret : Int) (mem' : Mem) (target' : Pgdir)
    (ran : copyPage mem target source (vpn * pgSize) = .ok (ret, mem', target')) : Space mem' target' foreign outside ∧
      (∀ other, other < nPages → other ≠ vpn → target'.entry other = target.entry other) ∧
      (∃ log, mem'.freed = log ++ mem.freed ∧
        Returned (fun page => target.count page + outside page) (fun page => target'.count page + outside page) log) ∧
      (∀ addr, mem.free (addr / pgSize) = false → mem'.phys addr = mem.phys addr) ∧
      (target.entry vpn = none → ∀ page, mem.free page = false → mem'.free page = false ∧ mem'.ref page = mem.ref page) ∧
      (ret = 0 → match source.entry vpn with
        | none => target'.entry vpn = target.entry vpn
        | some pte => ∃ npage, Copied mem mem' target' pte vpn npage) := by
  have index : vpn * pgSize / pgSize < nPages := by rwa [page_index]
  have entryEq : (source.lookup (vpn * pgSize)).join = source.entry vpn := rfl
  cases found : (source.lookup (vpn * pgSize)).join with
  | none =>
      have nothing : copyPage mem target source (vpn * pgSize) = .ok (0, mem, target) := by
        unfold copyPage
        cases looked : source.lookup (vpn * pgSize) with
        | none => rfl
        | some entry =>
            cases entry with
            | none => rfl
            | some pte => simp [looked] at found
      rw [nothing] at ran
      simp only [Except.ok.injEq, Prod.mk.injEq] at ran
      obtain ⟨rfl, rfl, rfl⟩ := ran
      rw [← entryEq, found]
      exact ⟨space, fun _ _ _ => rfl, ⟨[], rfl, returned_nothing _ _ fun _ positive => positive⟩, fun _ _ => rfl,
        fun _ page used => ⟨used, rfl⟩, fun _ => rfl⟩
  | some pte =>
      have looked := Option.join_eq_some_iff.mp found
      rw [← entryEq, found]
      obtain ⟨placed, memG, targetG, got, grown, _⟩ := get_pte_spec mem target (vpn * pgSize)
      have spaceG := grown_space mem memG target targetG foreign outside space grown
      have usedG := grown_used mem memG target targetG grown
      simp only [copyPage, looked, got] at ran
      cases placed with
      | false =>
          simp only [Except.ok.injEq, Prod.mk.injEq] at ran
          obtain ⟨rfl, rfl, rfl⟩ := ran
          refine ⟨spaceG, fun other bound _ => grown.entry other bound, ⟨[], grown.freed, returned_nothing _ _ fun page positive => ?_⟩,
            fun addr used => grown.phys addr ((usedG _ used).trans used.symm),
            fun _ page used => ⟨usedG page used, grown.refs page ((usedG page used).trans used.symm)⟩, by simp [eNoMem]⟩
          rwa [grown_count mem memG target targetG grown page]
      | true =>
          simp only [] at ran
          cases taken : memG.allocPage with
          | none => simp [taken] at ran
          | some result =>
              obtain ⟨npage, memA⟩ := result
              simp only [taken] at ran
              obtain ⟨free, shape⟩ := alloc_page_spec memG memA npage taken
              obtain ⟨noTable, noForeign, noOutside, unmapped, _⟩ := free_unused memG targetG foreign outside spaceG npage free
              obtain ⟨spaceA, usedA, unref⟩ := alloc_space memG targetG foreign outside spaceG npage memA taken
              have fresh : mem.free npage = true := by
                cases before : mem.free npage with
                | true => rfl
                | false =>
                    rw [usedG npage before] at free
                    cases free
              have apart : ∀ page, mem.free page = false → page ≠ npage := by
                rintro page used rfl
                rw [used] at fresh
                cases fresh
              have spaceC := space_phys memA targetG foreign outside spaceA
                (memcpy memA.phys (npage * pgSize) (memA.phys.from (pte.ppn * pgSize)) pgSize)
              obtain ⟨spaceI, entries⟩ := page_insert_space _ targetG foreign outside spaceC npage (vpn * pgSize) _ usedA index
                noTable noForeign ret mem' target' ran
              obtain ⟨log, freed, returned⟩ := page_insert_returned _ targetG foreign outside spaceC (vpn * pgSize) index npage _ usedA
                noTable noForeign ret mem' target' ran
              have physC : ∀ addr, mem.free (addr / pgSize) = false →
                  memcpy memA.phys (npage * pgSize) (memA.phys.from (pte.ppn * pgSize)) pgSize addr = mem.phys addr := by
                intro addr used
                rw [fill_phys _ _ _ addr (apart _ used), shape]
                exact grown.phys addr ((usedG _ used).trans used.symm)
              have usedC : ∀ page, mem.free page = false → memA.free page = false := by
                intro page used
                rw [shape]
                simp [apart page used, usedG page used]
              have refC : ∀ page, mem.free page = false → memA.ref page = mem.ref page := by
                intro page used
                rw [shape]
                exact grown.refs page ((usedG page used).trans used.symm)
              refine ⟨spaceI, fun other bound away => ?_, ⟨log, ?_, ?_⟩, ?_⟩
              · rw [entries other bound, page_index, if_neg (by simp [away]), grown.entry other bound]
              · rw [freed, shape]
                exact congrArg (log ++ ·) grown.freed
              · simp only [grown_count mem memG target targetG grown] at returned
                exact returned
              · rcases page_insert_ok _ targetG foreign outside spaceC npage (vpn * pgSize) _ usedA index noTable noForeign with
                  ⟨memI, targetI, grownI, result⟩ | ⟨memI, targetI, grownI, foundI, result⟩
                · rw [result] at ran
                  simp only [Except.ok.injEq, Prod.mk.injEq] at ran
                  obtain ⟨rfl, rfl, rfl⟩ := ran
                  have usedI := grown_used _ memI targetG targetI grownI
                  refine ⟨fun addr used => ?_, fun _ page used => ?_, by simp [eNoMem]⟩
                  · rw [grownI.phys addr ((usedI _ (usedC _ used)).trans (usedC _ used).symm)]
                    exact physC addr used
                  · exact ⟨usedI page (usedC page used),
                      (grownI.refs page ((usedI _ (usedC _ used)).trans (usedC _ used).symm)).trans (refC page used)⟩
                · rw [result] at ran
                  simp only [Except.ok.injEq, Prod.mk.injEq] at ran
                  obtain ⟨rfl, rfl, rfl⟩ := ran
                  have usedI := grown_used _ memI targetG targetI grownI
                  have oldEq : targetG.entry (vpn * pgSize / pgSize) = target.entry vpn := by rw [page_index, grown.entry vpn small]
                  have notOld : ∀ old, target.entry vpn = some old → old.ppn ≠ npage := by
                    rintro old here rfl
                    have positive := (count_pos targetG old.ppn).mpr ⟨vpn, small, by
                      simp [Pgdir.Maps, grown.entry vpn small, here]⟩
                    omega
                  have startRef : memI.ref npage = 0 := (grownI.refs npage ((usedI npage usedA).trans usedA.symm)).trans unref
                  refine ⟨fun addr used => ?_, fun none' page used => ?_, fun _ => ⟨npage, fresh, ?_, ?_, ?_, fun usedS i bound => ?_⟩⟩
                  · rw [swap_phys, grownI.phys addr ((usedI _ (usedC _ used)).trans (usedC _ used).symm)]
                    exact physC addr used
                  · rw [oldEq, none']
                    simp only [Mem.swapRef, Mem.setRef]
                    refine ⟨usedI page (usedC page used), ?_⟩
                    rw [Function.update_of_ne (apart page used)]
                    exact (grownI.refs page ((usedI _ (usedC _ used)).trans (usedC _ used).symm)).trans (refC page used)
                  · have here := entries vpn small
                    rwa [if_pos ⟨rfl, (page_index vpn).symm⟩] at here
                  · rw [oldEq]
                    cases old : target.entry vpn with
                    | none => simp [Mem.swapRef, Mem.setRef, startRef]
                    | some pteOld =>
                        rw [Mem.swapRef, (drop_ref_other _ _ npage (notOld pteOld old).symm).1]
                        simp [Mem.setRef, startRef]
                  · rw [oldEq]
                    cases old : target.entry vpn with
                    | none => exact usedI npage usedA
                    | some pteOld =>
                        rw [Mem.swapRef, (drop_ref_other _ _ npage (notOld pteOld old).symm).2]
                        exact usedI npage usedA
                  · have inside : (npage * pgSize + i) / pgSize = npage := page_byte npage i bound
                    rw [swap_phys, grownI.phys _ (by rw [inside]; exact (usedI npage usedA).trans usedA.symm)]
                    show memcpy memA.phys (npage * pgSize) (memA.phys.from (pte.ppn * pgSize)) pgSize (npage * pgSize + i) = _
                    rw [memcpy_inside _ _ _ _ _ (Nat.le_add_right _ _) (by omega), Nat.add_sub_cancel_left, shape]
                    have origin : mem.free ((pte.ppn * pgSize + i) / pgSize) = false := by rwa [page_byte pte.ppn i bound]
                    exact grown.phys _ ((usedG _ origin).trans origin.symm)

end Copy

end Ucore.Vmm
