import Ucore.Vmm.Shared

set_option autoImplicit false

namespace Ucore.Vmm

open Ucore.Lib

-- A page that is in use and no part of an address space yet.
def Idle (mem : Mem) (pgdir : Pgdir) (page : Nat) : Prop :=
  mem.free page = false ∧ (∀ a, pgdir.pageAt a ≠ some page) ∧ pgdir.count page = 0

-- A change of one address space: the references stay exact, the pages that go
-- are those whose last mapping went, and the pages that come were free or announced.
structure SpaceStep (mem mem' : Mem) (pgdir pgdir' : Pgdir) (foreign : Nat → Prop) (outside : Nat → Nat) (entering : Nat → Prop) : Prop where
  space : Space mem' pgdir' foreign outside
  returned : ∃ log, mem'.freed = log ++ mem.freed ∧
    Returned (fun page => pgdir.count page + outside page) (fun page => pgdir'.count page + outside page) log
  idle : ∀ page, ¬ entering page → Idle mem pgdir page → Idle mem' pgdir' page

theorem grown_idle (mem mem' : Mem) (pgdir pgdir' : Pgdir) (grown : Grown mem mem' pgdir pgdir') (page : Nat) (idle : Idle mem pgdir page) :
    Idle mem' pgdir' page :=
  ⟨grown_used mem mem' pgdir pgdir' grown page idle.1, grown_no_table mem mem' pgdir pgdir' grown page idle.1 idle.2.1,
    (grown_count mem mem' pgdir pgdir' grown page).trans idle.2.2⟩

theorem unmapped_entry (pgdir : Pgdir) (vpn : Nat) (pte : Pte) (small : vpn < nPages) (entry : pgdir.entry vpn = some pte) (page : Nat)
    (unmapped : pgdir.count page = 0) : page ≠ pte.ppn := by
  rintro rfl
  have positive := (count_pos pgdir pte.ppn).mpr ⟨vpn, small, by simp [Pgdir.Maps, entry]⟩
  omega

theorem user_page (la : Nat) (user : la < userTop) : la / pgSize < nPages := by
  simp only [userTop, pgSize, nPages] at user ⊢
  omega

section Steps

variable (mem : Mem) (pgdir : Pgdir) (foreign : Nat → Prop) (outside : Nat → Nat) (space : Space mem pgdir foreign outside)
  (la : Nat) (small : la / pgSize < nPages)

include space

theorem unchanged_step : SpaceStep mem mem pgdir pgdir foreign outside fun _ => False :=
  ⟨space, ⟨[], rfl, returned_nothing _ _ fun _ positive => positive⟩, fun _ _ idle => idle⟩

include small

theorem remove_step : ∃ mem' pgdir', pageRemovePte mem pgdir la = .ok (mem', pgdir') ∧
    SpaceStep mem mem' pgdir pgdir' foreign outside fun _ => False := by
  cases entry : (pgdir.lookup la).join with
  | none => exact ⟨mem, pgdir, no_remove mem pgdir la entry, unchanged_step mem pgdir foreign outside space⟩
  | some pte =>
      have found := Option.join_eq_some_iff.mp entry
      refine ⟨_, _, page_remove_pte_ok mem pgdir foreign outside space la pte found small,
        page_remove_pte_space mem pgdir foreign outside space la pte found small,
        ⟨_, drop_freed mem pte.ppn, remove_returned mem pgdir foreign outside space la small pte found⟩, fun page _ idle => ?_⟩
      obtain ⟨used, noTable, unmapped⟩ := idle
      have changed := removed_count pgdir la pte found small page
      have apart := unmapped_entry pgdir (la / pgSize) pte small (by rw [← lookup_entry, entry]) page unmapped
      refine ⟨?_, fun a => ?_, by omega⟩
      · rw [(drop_ref_other mem pte.ppn page apart).2, used]
      · rw [set_pte_page]
        exact noTable a

theorem insert_step (page perm : Nat) (used : mem.free page = false) (noTable : ∀ a, pgdir.pageAt a ≠ some page)
    (noForeign : ¬ foreign page) : ∃ ret mem' pgdir', pageInsert mem pgdir page la perm = .ok (ret, mem', pgdir') ∧
      SpaceStep mem mem' pgdir pgdir' foreign outside fun other => other = page := by
  rcases page_insert_ok mem pgdir foreign outside space page la perm used small noTable noForeign with
    ⟨memG, pgdirG, grown, result⟩ | ⟨memG, pgdirG, grown, found, result⟩
  · refine ⟨_, _, _, result, grown_space mem memG pgdir pgdirG foreign outside space grown,
      page_insert_returned mem pgdir foreign outside space la small page perm used noTable noForeign _ _ _ result, fun other _ idle => ?_⟩
    exact grown_idle mem memG pgdir pgdirG grown other idle
  · obtain ⟨spaceI, entries⟩ :=
      page_insert_space mem pgdir foreign outside space page la perm used small noTable noForeign _ _ _ result
    refine ⟨_, _, _, result, spaceI,
      page_insert_returned mem pgdir foreign outside space la small page perm used noTable noForeign _ _ _ result,
      fun other apart idle => ?_⟩
    have idleG := grown_idle mem memG pgdir pgdirG grown other idle
    refine ⟨?_, fun a => ?_, ?_⟩
    · cases old : pgdir.entry (la / pgSize) with
      | none => exact idleG.1
      | some pte =>
          rw [Mem.swapRef, (drop_ref_other _ pte.ppn other (unmapped_entry pgdir (la / pgSize) pte small old other idle.2.2)).2]
          exact idleG.1
    · rw [set_pte_page]
      exact idleG.2.1 a
    · by_contra some
      obtain ⟨vpn, bound, maps⟩ := (count_pos _ other).mp (Nat.pos_of_ne_zero some)
      rw [Pgdir.Maps, entries vpn bound] at maps
      split at maps
      · exact apart (Option.some.inj maps).symm
      · have positive := (count_pos pgdir other).mpr ⟨vpn, bound, maps⟩
        have unmapped := idle.2.2
        omega

theorem alloc_step (perm page : Nat) (mem' : Mem) (pgdir' : Pgdir) (ran : pgdirAllocPage mem pgdir la perm = .ok (some page, mem', pgdir')) :
    SpaceStep mem mem' pgdir pgdir' foreign outside fun _ => False := by
  obtain ⟨result, memR, pgdirR, ran', space', entries, returned⟩ := pgdir_alloc_page_ok mem pgdir foreign outside space la perm small
  rw [ran'] at ran
  simp only [Except.ok.injEq, Prod.mk.injEq] at ran
  obtain ⟨rfl, rfl, rfl⟩ := ran
  refine ⟨space', returned rfl, fun other _ idle => ?_⟩
  unfold pgdirAllocPage at ran'
  cases got : mem.allocPage with
  | none => simp [got] at ran'
  | some found =>
      obtain ⟨fresh, memA⟩ := found
      obtain ⟨spaceA, used, _⟩ := alloc_space mem pgdir foreign outside space fresh memA got
      obtain ⟨free, shape⟩ := alloc_page_spec mem memA fresh got
      obtain ⟨noTable, noForeign, _⟩ := free_unused mem pgdir foreign outside space fresh free
      have apart : other ≠ fresh := by
        rintro rfl
        rw [idle.1] at free
        cases free
      obtain ⟨ret, memI, pgdirI, inserted, step⟩ :=
        insert_step memA pgdir foreign outside spaceA la small fresh perm used noTable noForeign
      have idleA : Idle memA pgdir other := ⟨by simp [shape, apart, idle.1], idle.2⟩
      have idleI := step.idle other apart idleA
      simp only [got, inserted, ok_bind] at ran'
      by_cases failed : ret ≠ 0
      · rw [if_pos failed] at ran'
        cases freed : memI.freePage fresh with
        | error fault => simp [freed] at ran'
        | ok memF => simp [freed] at ran'
      · rw [if_neg failed] at ran'
        by_cases one : memI.ref fresh = 1
        · simp only [one, decide_true, check_true, ok_bind, pure_ok, Except.ok.injEq, Prod.mk.injEq] at ran'
          obtain ⟨_, rfl, rfl⟩ := ran'
          exact idleI
        · simp [one] at ran'

end Steps

theorem copy_step (mem : Mem) (target source : Pgdir) (foreign : Nat → Prop) (outside : Nat → Nat)
    (space : Space mem target foreign outside) (vpn : Nat) (small : vpn < nPages) (ret : Int) (mem' : Mem) (target' : Pgdir)
    (ran : copyPage mem target source (vpn * pgSize) = .ok (ret, mem', target')) :
    SpaceStep mem mem' target target' foreign outside fun _ => False := by
  obtain ⟨space', _, returned, _⟩ := copy_page_spec mem target source foreign outside space vpn small ret mem' target' ran
  refine ⟨space', returned, fun other _ idle => ?_⟩
  unfold copyPage at ran
  cases looked : source.lookup (vpn * pgSize) with
  | none =>
      simp only [looked, Except.ok.injEq, Prod.mk.injEq] at ran
      obtain ⟨_, rfl, rfl⟩ := ran
      exact idle
  | some entry =>
      cases entry with
      | none =>
          simp only [looked, Except.ok.injEq, Prod.mk.injEq] at ran
          obtain ⟨_, rfl, rfl⟩ := ran
          exact idle
      | some pte =>
          obtain ⟨placed, memG, targetG, got, grown, _⟩ := get_pte_spec mem target (vpn * pgSize)
          have idleG := grown_idle mem memG target targetG grown other idle
          have spaceG := grown_space mem memG target targetG foreign outside space grown
          simp only [looked, got] at ran
          cases placed with
          | false =>
              simp only [Except.ok.injEq, Prod.mk.injEq] at ran
              obtain ⟨_, rfl, rfl⟩ := ran
              exact idleG
          | true =>
              simp only [] at ran
              cases taken : memG.allocPage with
              | none => simp [taken] at ran
              | some result =>
                  obtain ⟨npage, memA⟩ := result
                  simp only [taken] at ran
                  obtain ⟨free, shape⟩ := alloc_page_spec memG memA npage taken
                  obtain ⟨noTable, noForeign, _⟩ := free_unused memG targetG foreign outside spaceG npage free
                  obtain ⟨spaceA, usedA, _⟩ := alloc_space memG targetG foreign outside spaceG npage memA taken
                  have apart : other ≠ npage := by
                    rintro rfl
                    rw [idleG.1] at free
                    cases free
                  have spaceC := space_phys memA targetG foreign outside spaceA
                    (memcpy memA.phys (npage * pgSize) (memA.phys.from (pte.ppn * pgSize)) pgSize)
                  obtain ⟨_, memI, pgdirI, inserted, step⟩ := insert_step _ targetG foreign outside spaceC (vpn * pgSize)
                    (by rwa [page_index]) npage (pte.flags &&& pteUser) usedA noTable noForeign
                  rw [inserted] at ran
                  simp only [Except.ok.injEq, Prod.mk.injEq] at ran
                  obtain ⟨_, rfl, rfl⟩ := ran
                  exact step.idle other apart ⟨by simp [shape, apart, idleG.1], idleG.2⟩

-- A copied page fails for want of memory only.
theorem copy_page_fault (mem : Mem) (target source : Pgdir) (foreign : Nat → Prop) (outside : Nat → Nat)
    (space : Space mem target foreign outside) (vpn : Nat) (small : vpn < nPages) (fault : Fault)
    (ran : copyPage mem target source (vpn * pgSize) = .error fault) : fault = .assertFailed := by
  unfold copyPage at ran
  cases looked : source.lookup (vpn * pgSize) with
  | none => simp [looked] at ran
  | some entry =>
      cases entry with
      | none => simp [looked] at ran
      | some pte =>
          obtain ⟨placed, memG, targetG, got, grown, _⟩ := get_pte_spec mem target (vpn * pgSize)
          have spaceG := grown_space mem memG target targetG foreign outside space grown
          simp only [looked, got] at ran
          cases placed with
          | false => simp at ran
          | true =>
              simp only [] at ran
              cases taken : memG.allocPage with
              | none =>
                  simp only [taken, Except.error.injEq] at ran
                  exact ran.symm
              | some result =>
                  obtain ⟨npage, memA⟩ := result
                  simp only [taken] at ran
                  obtain ⟨free, _⟩ := alloc_page_spec memG memA npage taken
                  obtain ⟨noTable, noForeign, _⟩ := free_unused memG targetG foreign outside spaceG npage free
                  obtain ⟨spaceA, usedA, _⟩ := alloc_space memG targetG foreign outside spaceG npage memA taken
                  have spaceC := space_phys memA targetG foreign outside spaceA
                    (memcpy memA.phys (npage * pgSize) (memA.phys.from (pte.ppn * pgSize)) pgSize)
                  obtain ⟨_, memI, pgdirI, inserted, _⟩ := insert_step _ targetG foreign outside spaceC (vpn * pgSize)
                    (by rwa [page_index]) npage (pte.flags &&& pteUser) usedA noTable noForeign
                  rw [inserted] at ran
                  cases ran

theorem copy_pages_fault (mem : Mem) (target source : Pgdir) (foreign : Nat → Prop) (outside : Nat → Nat)
    (space : Space mem target foreign outside) (vpns : List Nat) (user : ∀ vpn ∈ vpns, vpn * pgSize < userTop) (fault : Fault)
    (ran : copyPages mem target source vpns = .error fault) : fault = .assertFailed := by
  induction vpns generalizing mem target with
  | nil => simp [copyPages] at ran
  | cons vpn rest ih =>
      have small : vpn < nPages := by
        have here := user_page (vpn * pgSize) (user vpn (by simp))
        rwa [page_index] at here
      rw [copyPages] at ran
      cases copied : copyPage mem target source (vpn * pgSize) with
      | error stopped =>
          simp only [copied, error_bind, Except.error.injEq] at ran
          exact ran ▸ copy_page_fault mem target source foreign outside space vpn small stopped copied
      | ok result =>
          obtain ⟨ret, memC, targetC⟩ := result
          simp only [copied, ok_bind] at ran
          by_cases failed : ret ≠ 0
          · simp [failed] at ran
          · rw [if_neg failed] at ran
            exact ih memC targetC (copy_step mem target source foreign outside space vpn small ret memC targetC copied).space
              (fun other inside => user other (by simp [inside])) ran

section Ranges

def pagesBetween (start stop : Nat) : List Nat := List.range' (start / pgSize) (stop / pgSize - start / pgSize)

variable (start stop : Nat)

theorem range_pages (alignedStart : start % pgSize = 0) (alignedStop : stop % pgSize = 0) (user : UserAccess start stop) :
    start = start / pgSize * pgSize ∧ stop = stop / pgSize * pgSize ∧ start / pgSize < stop / pgSize ∧
      stop / pgSize - start / pgSize ≤ rangeFuel start stop ∧ ∀ vpn ∈ pagesBetween start stop, vpn * pgSize < userTop := by
  obtain ⟨low, order, high⟩ := user
  refine ⟨?_, ?_, ?_, ?_, fun vpn inside => ?_⟩
  · simp only [pgSize] at alignedStart ⊢
    omega
  · simp only [pgSize] at alignedStop ⊢
    omega
  · simp only [pgSize] at alignedStart alignedStop ⊢
    omega
  · simp only [rangeFuel, pgSize]
    omega
  · obtain ⟨_, upper⟩ := List.mem_range'_1.mp inside
    simp only [pgSize, userTop] at upper high ⊢
    omega

theorem unmap_range_pages (mem : Mem) (pgdir : Pgdir) : unmapRange mem pgdir start stop =
    if start % pgSize = 0 ∧ stop % pgSize = 0 ∧ UserAccess start stop then unmapPages mem pgdir (pagesBetween start stop)
    else .error .assertFailed := by
  by_cases aligned : start % pgSize = 0 ∧ stop % pgSize = 0
  · by_cases user : UserAccess start stop
    · obtain ⟨startPages, stopPages, order, enough, _⟩ := range_pages start stop aligned.1 aligned.2 user
      have loop := unmap_loop_pages mem pgdir _ _ (rangeFuel start stop) order enough
      rw [← startPages, ← stopPages] at loop
      simp [unmapRange, aligned, user, loop, pagesBetween]
    · simp [unmapRange, aligned, user]
  · have stops : ¬ (start % pgSize = 0 ∧ stop % pgSize = 0 ∧ UserAccess start stop) := fun all => aligned ⟨all.1, all.2.1⟩
    rw [if_neg stops]
    simp [unmapRange, aligned]

theorem copy_range_pages (mem : Mem) (target source : Pgdir) : copyRange mem target source start stop =
    if start % pgSize = 0 ∧ stop % pgSize = 0 ∧ UserAccess start stop then copyPages mem target source (pagesBetween start stop)
    else .error .assertFailed := by
  by_cases aligned : start % pgSize = 0 ∧ stop % pgSize = 0
  · by_cases user : UserAccess start stop
    · obtain ⟨startPages, stopPages, order, enough, _⟩ := range_pages start stop aligned.1 aligned.2 user
      have loop := copy_loop_pages mem target source _ _ (rangeFuel start stop) order enough
      rw [← startPages, ← stopPages] at loop
      simp [copyRange, aligned, user, loop, pagesBetween]
    · simp [copyRange, aligned, user]
  · have stops : ¬ (start % pgSize = 0 ∧ stop % pgSize = 0 ∧ UserAccess start stop) := fun all => aligned ⟨all.1, all.2.1⟩
    rw [if_neg stops]
    simp [copyRange, aligned]

end Ranges

end Ucore.Vmm
