import Ucore.Exec.ImageBuilt
import Ucore.Vmm.ExitExact

set_option autoImplicit false

namespace Ucore.Exec

open Ucore.Lib Ucore.Vmm

theorem grown_untabled (mem mem' : Mem) (pgdir pgdir' : Pgdir) (grown : Grown mem mem' pgdir pgdir') (page : Nat)
    (used : mem'.free page = false) (noTable : ∀ a, pgdir'.pageAt a ≠ some page) : mem.free page = false ∧ mem'.ref page = mem.ref page := by
  rcases grown.taken page with same | ⟨_, _, a, here⟩
  · exact ⟨same ▸ used, grown.refs page same⟩
  · exact absurd here (noTable a)

-- Only the reference that goes last gives a page back.
theorem drop_ref_used (mem : Mem) (page : Nat) (used : (mem.dropRef page).free page = false) : (mem.dropRef page).ref page ≠ 0 := by
  unfold Mem.dropRef at used ⊢
  by_cases last : mem.ref page = 1
  · simp [last] at used
  · rw [if_neg last]
    simp only [Mem.setRef, Function.update_self]
    omega

section Alloc

variable (mem : Mem) (pgdir : Pgdir) (foreign : Nat → Prop) (outside : Nat → Nat) (space : Space mem pgdir foreign outside)
  (la perm : Nat) (small : la / pgSize < nPages)

include space small

theorem pgdir_alloc_page_referenced (referenced : Referenced mem pgdir foreign) (found : Option Nat) (mem' : Mem) (pgdir' : Pgdir)
    (ran : pgdirAllocPage mem pgdir la perm = .ok (found, mem', pgdir')) : Referenced mem' pgdir' foreign := by
  unfold pgdirAllocPage at ran
  cases got : mem.allocPage with
  | none =>
      simp only [got, Except.ok.injEq, Prod.mk.injEq] at ran
      obtain ⟨_, rfl, rfl⟩ := ran
      exact referenced
  | some result =>
      obtain ⟨page, memA⟩ := result
      obtain ⟨spaceA, used, _⟩ := alloc_space mem pgdir foreign outside space page memA got
      obtain ⟨free, shape⟩ := alloc_page_spec mem memA page got
      obtain ⟨noTable, noForeign, _⟩ := free_unused mem pgdir foreign outside space page free
      -- The new tables apart, a page in use was in use before and keeps its count.
      have older : ∀ memG pgdirG, Grown memA memG pgdir pgdirG → ∀ other, other ≠ page → memG.free other = false → ¬ foreign other →
          (∀ a, pgdirG.pageAt a ≠ some other) → memG.ref other ≠ 0 := by
        intro memG pgdirG grown other apart usedG away untabled
        obtain ⟨usedA, refs⟩ := grown_untabled memA memG pgdir pgdirG grown other usedG untabled
        rw [refs, shape]
        refine referenced other ?_ away fun a here => untabled a (grown.kept a other here)
        simpa [shape, apart] using usedA
      simp only [got] at ran
      rcases page_insert_ok memA pgdir foreign outside spaceA page la perm used small noTable noForeign with
        ⟨memG, pgdirG, grown, inserted⟩ | ⟨memG, pgdirG, grown, _, inserted⟩
      · simp only [inserted, ok_bind, if_pos (show eNoMem ≠ 0 by decide)] at ran
        obtain ⟨memF, freed, ran⟩ := bind_ok ran
        simp only [pure_ok, Except.ok.injEq, Prod.mk.injEq] at ran
        obtain ⟨_, rfl, rfl⟩ := ran
        have usedG := grown_used memA memG pgdir pgdirG grown page used
        simp only [Mem.freePage, usedG, Bool.false_eq_true, if_false, Except.ok.injEq] at freed
        subst freed
        intro other inUse away untabled
        by_cases same : other = page
        · simp [same] at inUse
        · simp only [Function.update_of_ne same] at inUse ⊢
          exact older memG pgdirG grown other same inUse away untabled
      · simp only [inserted, ok_bind, ne_eq, not_true_eq_false, if_false] at ran
        obtain ⟨one, ran⟩ := check_bind_ok ran
        simp only [pure_ok, Except.ok.injEq, Prod.mk.injEq] at ran
        obtain ⟨_, rfl, rfl⟩ := ran
        have one := of_decide_eq_true one
        intro other inUse away untabled
        have untabledG : ∀ a, pgdirG.pageAt a ≠ some other := fun a here => untabled a (by rw [set_pte_page]; exact here)
        by_cases same : other = page
        · rw [same, one]
          decide
        · cases old : pgdir.entry (la / pgSize) with
          | none =>
              simp only [old, Mem.swapRef, Mem.setRef, Function.update_of_ne same] at inUse ⊢
              exact older memG pgdirG grown other same inUse away untabledG
          | some pte =>
              simp only [old, Mem.swapRef] at inUse ⊢
              by_cases dropped : other = pte.ppn
              · rw [dropped] at inUse ⊢
                exact drop_ref_used _ pte.ppn inUse
              · obtain ⟨refs, frees⟩ := drop_ref_other (memG.setRef page (memG.ref page + 1)) pte.ppn other dropped
                rw [frees] at inUse
                rw [refs]
                simp only [Mem.setRef, Function.update_of_ne same] at inUse ⊢
                exact older memG pgdirG grown other same inUse away untabledG

end Alloc

-- What load_icode builds, at every point of it: an image whose pages are all
-- accounted for.
structure Built (mem : Mem) (pgdir : Pgdir) (foreign : Nat → Prop) : Prop where
  image : Image mem pgdir foreign fun _ => 0
  referenced : Referenced mem pgdir foreign

theorem built_phys (mem : Mem) (pgdir : Pgdir) (foreign : Nat → Prop) (built : Built mem pgdir foreign) (phys : Bytes) :
    Built { mem with phys := phys } pgdir foreign :=
  ⟨image_phys mem pgdir foreign _ built.image phys, built.referenced⟩

theorem alloc_built (mem : Mem) (pgdir : Pgdir) (foreign : Nat → Prop) (built : Built mem pgdir foreign) (la perm : Nat)
    (small : la / pgSize < nPages) :
    ∃ found mem' pgdir', pgdirAllocPage mem pgdir la perm = .ok (found, mem', pgdir') ∧ Built mem' pgdir' foreign := by
  obtain ⟨found, mem', pgdir', ran, space', entries, _⟩ := pgdir_alloc_page_ok mem pgdir foreign _ built.image.space la perm small
  have referenced := pgdir_alloc_page_referenced mem pgdir foreign _ built.image.space la perm small built.referenced found mem' pgdir' ran
  refine ⟨found, mem', pgdir', ran, ?_, referenced⟩
  cases found with
  | some page => exact (given_image mem mem' pgdir pgdir' foreign _ la perm page built.image small ran).1
  | none =>
      refine ⟨space', fun vpn other pte pte' bound bound' here there => ?_⟩
      rw [entries vpn bound] at here
      rw [entries other bound'] at there
      simp only [Option.isSome_none, Bool.false_eq_true, false_and, if_false] at here there
      exact built.image.own vpn other pte pte' bound bound' here there

section Loops

variable (foreign : Nat → Prop) (perm stop : Nat)

-- The fuel is enough and each allocation is below the end of the tables, whether the
-- reads and the allocations work or not. Only the first seek can leave the file.
theorem load_text_built (fails : Failures) (file : ElfFile) (fuel : Nat) (mem : Mem) (pgdir : Pgdir) (start vpn offset : Nat)
    (built : Built mem pgdir foreign) (here : start < stop → vpn * pgSize ≤ start ∧ start < vpn * pgSize + pgSize)
    (near : start ≤ userTop + offset) (low : start ≤ userTop + sfsMaxFileSize) (enough : textCount start stop vpn < fuel)
    (seeks : ∀ page memA pgdirA, start < stop → pgdirAllocPage mem pgdir (vpn * pgSize) perm = .ok (some page, memA, pgdirA) →
      SeekSafe fails file offset) :
    ∃ ret mem' pgdir' start' la', loadText fails file mem pgdir perm stop start (vpn * pgSize) offset fuel = .ok (ret, mem', pgdir', start', la') ∧
      ret ≤ 0 ∧ Built mem' pgdir' foreign := by
  induction fuel generalizing mem pgdir start vpn offset with
  | zero => omega
  | succ fuel ih =>
      rw [loadText]
      by_cases before : start < stop
      · obtain ⟨lower, upper⟩ := here before
        have small : vpn < nPages := by
          simp only [nPages, pgSize, userTop, sfsMaxFileSize] at *
          omega
        have index := page_index vpn
        obtain ⟨found, memA, pgdirA, allocated, builtA⟩ := alloc_built mem pgdir foreign built (vpn * pgSize) perm (by rwa [index])
        rw [if_pos before, allocated, ok_bind]
        cases found with
        | none => exact ⟨eNoMem, memA, pgdirA, start, vpn * pgSize, rfl, by decide, builtA⟩
        | some page =>
            simp only []
            rcases load_icode_read_settled fails file memA (roundSize start stop (vpn * pgSize)) offset with ⟨_, ret, buf, got⟩ | ⟨stuck, _⟩
            · rw [got, ok_bind]
              by_cases bad : ret ≠ 0
              · have negative := load_icode_read_error fails file _ _ _ ret buf got bad
                simp only [if_pos bad]
                exact ⟨ret, memA, pgdirA, start, vpn * pgSize, rfl, by omega, builtA⟩
              · obtain rfl := not_not.mp bad
                obtain ⟨below, size, _⟩ := load_icode_read_ok fails file _ _ _ buf got
                have fits := file.fits
                have next : vpn * pgSize + pgSize = (vpn + 1) * pgSize := by rw [Nat.succ_mul]
                have count := text_count_round start stop vpn before lower upper
                simp only [bad, if_false, next]
                exact ih _ pgdirA _ (vpn + 1) _ (built_phys memA pgdirA foreign builtA _) (fun more => by
                  rw [round_next start stop vpn before upper more]
                  exact ⟨Nat.le_refl _, Nat.lt_add_of_pos_right (by decide)⟩) (by omega) (by omega) (by omega)
                  fun _ _ _ _ _ => (seek_in_file fails file _ size).2
            · exact absurd (seeks page memA pgdirA before allocated) stuck
      · rw [if_neg before]
        exact ⟨0, mem, pgdir, start, vpn * pgSize, rfl, Int.le_refl 0, built⟩

theorem struck_inside (pgdir : Pgdir) (page start la size : Nat) (inside : la ≤ start) : struck pgdir page start la size = false := by
  rw [struck, decide_eq_false (by omega), Bool.false_and]

-- The frame below the page is one of the tables.
theorem struck_table (pgdir : Pgdir) (page start la size : Nat) (hit : struck pgdir page start la size = true) :
    ∃ a table, pgdir.pageAt a = some table ∧ table + 1 = page := by
  simp only [struck, Bool.and_eq_true, Bool.or_eq_true, beq_iff_eq, List.any_eq_true, Option.any_eq_true] at hit
  rcases hit.2 with ⟨root, _⟩ | ⟨d1, _, dir, here, ⟨same, _⟩ | ⟨d0, _, table, there, same, _⟩⟩
  · exact ⟨.root, pgdir.page, rfl, root⟩
  · exact ⟨.dir d1, dir.page, by rw [Pgdir.pageAt, here]; rfl, same⟩
  · exact ⟨.table d1 d0, table.page, by rw [Pgdir.pageAt, here, Option.bind_some, PageDir.tablePage, there]; rfl, same⟩

theorem build_bss_built (fuel : Nat) (mem : Mem) (pgdir : Pgdir) (start vpn : Nat) (built : Built mem pgdir foreign)
    (here : start < stop → start < vpn * pgSize + pgSize ∧ vpn * pgSize < start + pgSize) (user : start < stop → stop ≤ userTop)
    (enough : bssCount start stop vpn < fuel)
    (misses : ∀ page memA pgdirA, start < stop → pgdirAllocPage mem pgdir (vpn * pgSize) perm = .ok (some page, memA, pgdirA) →
      struck pgdirA page start (vpn * pgSize) (roundSize start stop (vpn * pgSize)) = false) :
    ∃ ret mem' pgdir', buildBss mem pgdir perm stop start (vpn * pgSize) fuel = .ok (ret, mem', pgdir') ∧ ret ≤ 0 ∧ Built mem' pgdir' foreign := by
  induction fuel generalizing mem pgdir start vpn with
  | zero => omega
  | succ fuel ih =>
      rw [buildBss]
      by_cases before : start < stop
      · obtain ⟨upper, lower⟩ := here before
        have high := user before
        have small : vpn < nPages := by
          simp only [nPages, pgSize, userTop] at *
          omega
        have index := page_index vpn
        obtain ⟨found, memA, pgdirA, allocated, builtA⟩ := alloc_built mem pgdir foreign built (vpn * pgSize) perm (by rwa [index])
        rw [if_pos before, allocated, ok_bind]
        cases found with
        | none => exact ⟨eNoMem, memA, pgdirA, rfl, by decide, builtA⟩
        | some page =>
            have next : vpn * pgSize + pgSize = (vpn + 1) * pgSize := by rw [Nat.succ_mul]
            have count := bss_count_round start stop vpn before upper
            simp only [misses page memA pgdirA before allocated, Bool.not_false, check_true, ok_bind, next]
            exact ih _ pgdirA _ (vpn + 1) (built_phys memA pgdirA foreign builtA _) (fun more => by
              rw [round_next start stop vpn before upper more]
              exact ⟨Nat.lt_add_of_pos_right (by decide), Nat.lt_add_of_pos_right (by decide)⟩) (fun _ => high) (by omega)
              fun page' _ pgdir' more _ => by
                rw [round_next start stop vpn before upper more]
                exact struck_inside pgdir' page' _ _ _ (Nat.le_refl _)
      · rw [if_neg before]
        exact ⟨0, mem, pgdir, rfl, Int.le_refl 0, built⟩

end Loops

theorem stack_pages_built (foreign : Nat → Prop) (places : List Nat) (mem : Mem) (pgdir : Pgdir) (built : Built mem pgdir foreign) :
    ∃ ret mem' pgdir', stackPages mem pgdir places = .ok (ret, mem', pgdir') ∧ ret ≤ 0 ∧ Built mem' pgdir' foreign := by
  induction places generalizing mem pgdir with
  | nil => exact ⟨0, mem, pgdir, rfl, Int.le_refl 0, built⟩
  | cons i rest ih =>
      have small : (ustackTop - i * pgSize) / pgSize < nPages := by
        simp only [ustackTop, userTop, pgSize, nPages]
        omega
      obtain ⟨found, memA, pgdirA, allocated, builtA⟩ := alloc_built mem pgdir foreign built _ stackPerm small
      rw [stackPages, allocated, ok_bind]
      cases found with
      | none => exact ⟨eNoMem, memA, pgdirA, rfl, by decide, builtA⟩
      | some page => exact ih memA pgdirA builtA

end Ucore.Exec
