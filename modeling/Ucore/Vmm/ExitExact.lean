import Ucore.Vmm.SpaceExit

set_option autoImplicit false

namespace Ucore.Vmm

open Ucore.Lib

theorem free_page_kept (mem mem' : Mem) (page other : Nat) (ran : mem.freePage page = .ok mem') (apart : other ≠ page) :
    mem'.free other = mem.free other := by
  unfold Mem.freePage at ran
  split at ran
  · simp at ran
  · obtain rfl := Except.ok.inj ran
    simp [apart]

-- What a walk of exit_range takes away are tables, whatever their entries are.
structure Shrinks (mem mem' : Mem) (pgdir pgdir' : Pgdir) : Prop where
  root : pgdir'.page = pgdir.page
  tables : ∀ a page, pgdir'.pageAt a = some page → pgdir.pageAt a = some page
  kept : ∀ page, (∀ a, pgdir.pageAt a ≠ some page) → mem'.free page = mem.free page

theorem shrinks_refl (mem : Mem) (pgdir : Pgdir) : Shrinks mem mem pgdir pgdir := ⟨rfl, fun _ _ here => here, fun _ _ => rfl⟩

theorem shrinks_trans (mem mem' mem'' : Mem) (pgdir pgdir' pgdir'' : Pgdir) (first : Shrinks mem mem' pgdir pgdir')
    (second : Shrinks mem' mem'' pgdir' pgdir'') : Shrinks mem mem'' pgdir pgdir'' where
  root := second.root.trans first.root
  tables := fun a page here => first.tables a page (second.tables a page here)
  kept := fun page absent => by
    rw [second.kept page fun a here => absent a (first.tables a page here)]
    exact first.kept page absent

structure DirShrinks (mem mem' : Mem) (dir dir' : PageDir) : Prop where
  page : dir'.page = dir.page
  tables : ∀ d0 page, dir'.tablePage d0 = some page → dir.tablePage d0 = some page
  kept : ∀ page, (∀ d0, dir.tablePage d0 ≠ some page) → mem'.free page = mem.free page

theorem set_table_none (dir : PageDir) (d0 other : Fin 512) (page : Nat) (here : (dir.setTable d0 none).tablePage other = some page) :
    dir.tablePage other = some page := by
  by_cases same : other = d0
  · simp [PageDir.tablePage, PageDir.setTable, same] at here
  · simpa [PageDir.tablePage, PageDir.setTable, same] using here

theorem exit_tables_shrinks (fuel : Nat) (mem mem' : Mem) (dir dir' : PageDir) (freePd0 freePd0' : Bool) (d0start d1start stop : Nat)
    (ran : exitTables mem dir freePd0 d0start d1start stop fuel = .ok (mem', dir', freePd0')) : DirShrinks mem mem' dir dir' := by
  induction fuel generalizing mem dir freePd0 d0start with
  | zero => simp [exitTables] at ran
  | succ fuel ih =>
      -- After the round: the loop goes on or ends.
      have advance : ∀ (memR : Mem) (dirR : PageDir) (flag : Bool), DirShrinks mem memR dir dirR →
          (if d0start + ptSize ≠ 0 ∧ d0start + ptSize < d1start + pdSize ∧ d0start + ptSize < stop then
            exitTables memR dirR flag (d0start + ptSize) d1start stop fuel else .ok (memR, dirR, flag)) = .ok (mem', dir', freePd0') →
          DirShrinks mem mem' dir dir' := by
        intro memR dirR flag here rest
        by_cases more : d0start + ptSize ≠ 0 ∧ d0start + ptSize < d1start + pdSize ∧ d0start + ptSize < stop
        · rw [if_pos more] at rest
          have later := ih memR dirR flag _ rest
          refine ⟨later.page.trans here.page, fun d0 page at' => here.tables d0 page (later.tables d0 page at'), fun page absent => ?_⟩
          rw [later.kept page fun d0 at' => absent d0 (here.tables d0 page at')]
          exact here.kept page absent
        · rw [if_neg more] at rest
          simp only [Except.ok.injEq, Prod.mk.injEq] at rest
          obtain ⟨rfl, rfl, _⟩ := rest
          exact here
      have same : DirShrinks mem mem dir dir := ⟨rfl, fun _ _ here => here, fun _ _ => rfl⟩
      rw [exitTables] at ran
      cases atSlot : dir.entries (pdx0 d0start) with
      | none =>
          simp only [atSlot] at ran
          exact advance mem dir false same (by simpa using ran)
      | some table =>
          simp only [atSlot] at ran
          by_cases empty : tableEmpty table = true
          · rw [if_pos empty] at ran
            obtain ⟨memF, freed, ran⟩ := bind_ok ran
            refine advance memF (dir.setTable (pdx0 d0start) none) freePd0 ⟨rfl, fun other page here => set_table_none dir _ other page here,
              fun page absent => ?_⟩ (by simpa using ran)
            refine free_page_kept mem memF table.page page freed fun same => absent (pdx0 d0start) ?_
            rw [PageDir.tablePage, atSlot, same, Option.map_some]
          · rw [if_neg empty] at ran
            exact advance mem dir freePd0 same (by simpa using ran)

theorem exit_dir_shrinks (mem mem' : Mem) (pgdir pgdir' : Pgdir) (d1start d0start stop : Nat)
    (ran : exitDir mem pgdir d1start d0start stop = .ok (mem', pgdir')) : Shrinks mem mem' pgdir pgdir' := by
  rw [exitDir] at ran
  cases atDir : pgdir.entries (pdx1 d1start) with
  | none =>
      simp only [atDir, Except.ok.injEq, Prod.mk.injEq] at ran
      obtain ⟨rfl, rfl⟩ := ran
      exact shrinks_refl mem pgdir
  | some dir =>
      simp only [atDir] at ran
      obtain ⟨⟨memT, dirT, freePd0⟩, tables, ran⟩ := bind_ok ran
      have shrunk := exit_tables_shrinks _ mem memT dir dirT true freePd0 _ _ _ tables
      have keptT : ∀ page, (∀ a, pgdir.pageAt a ≠ some page) → memT.free page = mem.free page := fun page absent =>
        shrunk.kept page fun d0 at' => absent (.table (pdx1 d1start) d0) (by simp [Pgdir.pageAt, atDir, at'])
      by_cases complete : freePd0 = true
      · simp only [if_pos complete] at ran
        obtain ⟨memD, freed, ran⟩ := bind_ok ran
        simp only [pure_ok, Except.ok.injEq, Prod.mk.injEq] at ran
        obtain ⟨rfl, rfl⟩ := ran
        refine ⟨rfl, fun a page here => ?_, fun page absent => ?_⟩
        · cases a with
          | root => exact here
          | dir d1 =>
              by_cases same : d1 = pdx1 d1start
              · simp [Pgdir.pageAt, Pgdir.setDir, same] at here
              · simpa [Pgdir.pageAt, Pgdir.setDir, same] using here
          | table d1 d0 =>
              by_cases same : d1 = pdx1 d1start
              · simp [Pgdir.pageAt, Pgdir.setDir, same] at here
              · simpa [Pgdir.pageAt, Pgdir.setDir, same] using here
        · rw [free_page_kept memT memD dirT.page page freed fun same => absent (.dir (pdx1 d1start)) (by
            simp [Pgdir.pageAt, atDir, same, shrunk.page])]
          exact keptT page absent
      · simp only [if_neg complete, pure_ok, Except.ok.injEq, Prod.mk.injEq] at ran
        obtain ⟨rfl, rfl⟩ := ran
        refine ⟨rfl, fun a page here => ?_, keptT⟩
        cases a with
        | root => exact here
        | dir d1 =>
            by_cases same : d1 = pdx1 d1start
            · subst same
              simpa [Pgdir.pageAt, Pgdir.setDir, atDir, shrunk.page] using here
            · simpa [Pgdir.pageAt, Pgdir.setDir, same] using here
        | table d1 d0 =>
            by_cases same : d1 = pdx1 d1start
            · subst same
              have inDir : dirT.tablePage d0 = some page := by simpa [Pgdir.pageAt, Pgdir.setDir] using here
              simpa [Pgdir.pageAt, atDir] using shrunk.tables d0 page inDir
            · simpa [Pgdir.pageAt, Pgdir.setDir, same] using here

theorem exit_dirs_shrinks (fuel : Nat) (mem mem' : Mem) (pgdir pgdir' : Pgdir) (d1start d0start stop : Nat)
    (ran : exitDirs mem pgdir d1start d0start stop fuel = .ok (mem', pgdir')) : Shrinks mem mem' pgdir pgdir' := by
  induction fuel generalizing mem pgdir d1start d0start with
  | zero => simp [exitDirs] at ran
  | succ fuel ih =>
      rw [exit_dirs_step] at ran
      obtain ⟨⟨memR, pgdirR⟩, round, ran⟩ := bind_ok ran
      have here := exit_dir_shrinks mem memR pgdir pgdirR d1start d0start stop round
      by_cases more : d1start + pdSize ≠ 0 ∧ d1start + pdSize < stop
      · rw [if_pos more] at ran
        exact shrinks_trans mem memR mem' pgdir pgdirR pgdir' here (ih memR pgdirR _ _ ran)
      · rw [if_neg more] at ran
        obtain ⟨rfl, rfl⟩ := Prod.mk.inj (Except.ok.inj ran)
        exact here

theorem exit_all_shrinks (vmas : List Vma) (mem mem' : Mem) (pgdir pgdir' : Pgdir) (ran : exitAll mem pgdir vmas = .ok (mem', pgdir')) :
    Shrinks mem mem' pgdir pgdir' := by
  induction vmas generalizing mem pgdir with
  | nil =>
      obtain ⟨rfl, rfl⟩ := Prod.mk.inj (Except.ok.inj ran)
      exact shrinks_refl mem pgdir
  | cons vma rest ih =>
      rw [exitAll] at ran
      obtain ⟨⟨memR, pgdirR⟩, walked, ran⟩ := bind_ok ran
      rw [exitRange] at walked
      obtain ⟨_, walked⟩ := check_bind_ok walked
      obtain ⟨_, walked⟩ := check_bind_ok walked
      exact shrinks_trans mem memR mem' pgdir pgdirR pgdir' (exit_dirs_shrinks _ mem memR pgdir pgdirR _ _ _ walked) (ih memR pgdirR ran)

-- exit_mmap and put_pgdir leave in use what belongs to others, and nothing else.
def ExitsClean (mem : Mem) (mm : Mm) (foreign : Nat → Prop) : Prop :=
  ∃ mem' mm' mem'', exitMmap mem mm = .ok (mem', mm') ∧ putPgdir mem' mm' = .ok mem'' ∧ ∀ page, mem''.free page = false ↔ foreign page

section Clean

variable (mem : Mem) (mm : Mm) (foreign : Nat → Prop) (space : Space mem mm.pgdir foreign fun _ => 0) (areas : Areas mm.mmapList)

include space areas

-- A page that is mapped outside the areas stays in use.
theorem uncovered_leaks (clean : ExitsClean mem mm foreign) : mm.Covered := by
  intro vpn bound mapped
  by_contra away
  obtain ⟨mem', mm', mem'', exited, put, used⟩ := clean
  obtain ⟨memU, pgdir, log, unmapped, space', pages, entries, _⟩ := unmap_all_spec mem mm foreign _ space areas
  obtain ⟨pte, entry⟩ := Option.ne_none_iff_exists'.mp mapped
  have here : 0 < pgdir.count pte.ppn := by
    refine (count_pos pgdir pte.ppn).mpr ⟨vpn, bound, ?_⟩
    rw [Pgdir.Maps, entries vpn bound, if_neg away, entry, Option.map_some]
  obtain ⟨inUse, noForeign⟩ := space'.mapped pte.ppn here
  have noTable : ∀ a, pgdir.pageAt a ≠ some pte.ppn := by
    intro a at'
    have unmapped' := (space'.tables a pte.ppn at').2.2.2
    omega
  rw [exitMmap, unmapped, ok_bind] at exited
  obtain ⟨⟨memX, pgdirX⟩, walked, exited⟩ := bind_ok exited
  obtain ⟨rfl, rfl⟩ := Prod.mk.inj (Except.ok.inj exited)
  have shrunk := exit_all_shrinks mm.mmapList memU memX pgdir pgdirX walked
  rw [putPgdir] at put
  have kept := free_page_kept memX mem'' pgdirX.page pte.ppn put fun same => noTable .root (by
    rw [same, shrunk.root]
    rfl)
  exact noForeign ((used pte.ppn).mp (by rw [kept, shrunk.kept pte.ppn noTable, inUse]))

theorem exits_clean_iff (referenced : Referenced mem mm.pgdir foreign) : ExitsClean mem mm foreign ↔ mm.Covered ∧ mm.TablesClose := by
  have cleanWhen : mm.Covered → (ExitsClean mem mm foreign ↔ mm.TablesClose) := by
    intro covered
    obtain ⟨memU, pgdir, log, unmapped, space', pages, entries, keeps, _⟩ := unmap_all_spec mem mm foreign _ space areas
    have gone := covered_unmapped mm pgdir covered entries
    obtain ⟨mem', mem'', exited, put, _, free⟩ := exit_all_put memU mm pgdir foreign _ space' areas (unmapped_emptied pgdir gone)
    have once : pgdir.Once := space'.once
    have places := close_all_place (mm.mmapList.flatMap Vma.visits) pgdir once
    have both := exit_mmap_ok mem memU mem' mm pgdir _ unmapped exited
    rw [← tables_given_iff mm pgdir once pages]
    constructor
    · intro clean a page apart at'
      obtain ⟨memO, mmO, memO', exitedO, putO, used⟩ := clean
      rw [both] at exitedO
      obtain ⟨rfl, rfl⟩ := Prod.mk.inj (Except.ok.inj exitedO)
      rw [put] at putO
      obtain rfl := Except.ok.inj putO
      obtain ⟨inUse, noForeign, _, _⟩ := space'.tables a page at'
      by_contra kept
      refine noForeign ((used page).mp (Bool.eq_false_iff.mpr fun given => ?_))
      rcases (free page).mp given with root | closed | before
      · exact apart (once a .root page at' (by rw [root]; rfl))
      · exact kept closed
      · rw [inUse] at before
        cases before
    · intro all
      refine ⟨mem', _, mem'', both, put, fun page => ⟨fun used => ?_, fun claimed => ?_⟩⟩
      · -- What is in use is no table and has no mapping left, so it is foreign.
        have notFree : ¬ mem''.free page = true := Bool.eq_false_iff.mp used
        rw [free, not_or, not_or] at notFree
        obtain ⟨notRoot, notClosed, notBefore⟩ := notFree
        have noTable : ∀ a, pgdir.pageAt a ≠ some page := by
          intro a at'
          by_cases root : a = .root
          · subst root
            exact notRoot (Option.some.inj at').symm
          · exact notClosed (all a page root at')
        by_contra noForeign
        have zero := space'.refs page noTable noForeign
        rw [unmapped_count pgdir gone page] at zero
        exact keeps referenced page (Bool.eq_false_iff.mpr notBefore) noForeign noTable zero
      · refine Bool.eq_false_iff.mpr fun given => ?_
        rcases (free page).mp given with root | closed | before
        · exact (space'.tables .root page (by rw [root]; rfl)).2.1 claimed
        · obtain ⟨a, _, at'⟩ := places page closed
          exact (space'.tables a page at').2.1 claimed
        · rw [space'.foreignUsed page claimed] at before
          cases before
  constructor
  · intro clean
    have covered := uncovered_leaks mem mm foreign space areas clean
    exact ⟨covered, (cleanWhen covered).mp clean⟩
  · intro both
    exact (cleanWhen both.1).mpr both.2

end Clean

end Ucore.Vmm
