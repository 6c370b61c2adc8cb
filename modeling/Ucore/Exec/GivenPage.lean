import Ucore.Exec.LoadIcode

set_option autoImplicit false

namespace Ucore.Exec

open Ucore.Lib Ucore.Vmm

-- What pgdir_alloc_page does when it has a page: one entry changes, new tables come
-- in frames that were free, and nothing in a frame that was in use is written.
structure Given (mem mem' : Mem) (pgdir pgdir' : Pgdir) (vpn page perm : Nat) : Prop where
  fresh : mem.free page = true
  entry : ∀ other, other < nPages → pgdir'.entry other = if other = vpn then some (pteCreate page (pteV ||| perm)) else pgdir.entry other
  tables : ∀ a frame, pgdir.pageAt a = some frame → pgdir'.pageAt a = some frame
  phys : ∀ addr, mem.free (addr / pgSize) = false ∨ (∀ a, pgdir'.pageAt a ≠ some (addr / pgSize)) → mem'.phys addr = mem.phys addr
  kept : pgdir.entry vpn = none → ∀ frame, mem.free frame = false → mem'.free frame = false

theorem grown_phys_untabled (mem mem' : Mem) (pgdir pgdir' : Pgdir) (grown : Grown mem mem' pgdir pgdir') (addr : Nat)
    (apart : mem.free (addr / pgSize) = false ∨ ∀ a, pgdir'.pageAt a ≠ some (addr / pgSize)) : mem'.phys addr = mem.phys addr := by
  refine grown.phys addr ?_
  rcases apart with used | untabled
  · exact (grown_used mem mem' pgdir pgdir' grown _ used).trans used.symm
  · rcases grown.taken (addr / pgSize) with same | ⟨_, _, a, here⟩
    · exact same
    · exact absurd here (untabled a)

section Given

variable (mem mem' : Mem) (pgdir pgdir' : Pgdir) (foreign : Nat → Prop) (outside : Nat → Nat) (space : Space mem pgdir foreign outside)
  (la perm page : Nat) (small : la / pgSize < nPages)

include space small

theorem given_page (ran : pgdirAllocPage mem pgdir la perm = .ok (some page, mem', pgdir')) :
    Space mem' pgdir' foreign outside ∧ Given mem mem' pgdir pgdir' (la / pgSize) page perm := by
  obtain ⟨result, memR, pgdirR, ran', space', entries, _⟩ := pgdir_alloc_page_ok mem pgdir foreign outside space la perm small
  rw [ran] at ran'
  simp only [Except.ok.injEq, Prod.mk.injEq] at ran'
  obtain ⟨rfl, rfl, rfl⟩ := ran'
  refine ⟨space', ?_⟩
  unfold pgdirAllocPage at ran
  cases got : mem.allocPage with
  | none => simp [got] at ran
  | some found =>
      obtain ⟨frame, memA⟩ := found
      obtain ⟨spaceA, used, _⟩ := alloc_space mem pgdir foreign outside space frame memA got
      obtain ⟨free, shape⟩ := alloc_page_spec mem memA frame got
      obtain ⟨noTable, noForeign, _⟩ := free_unused mem pgdir foreign outside space frame free
      simp only [got] at ran
      rcases page_insert_ok memA pgdir foreign outside spaceA frame la perm used small noTable noForeign with
        ⟨memG, pgdirG, grown, result⟩ | ⟨memG, pgdirG, grown, found, result⟩
      · simp only [result, ok_bind, eNoMem] at ran
        cases freed : memG.freePage frame with
        | error fault => simp [freed] at ran
        | ok memF => simp [freed] at ran
      · simp only [result, ok_bind, ne_eq, not_true_eq_false, if_false] at ran
        obtain ⟨_, done⟩ := check_bind_ok ran
        simp only [pure_ok, Except.ok.injEq, Prod.mk.injEq, Option.some.injEq] at done
        obtain ⟨rfl, rfl, rfl⟩ := done
        have physA : memA.phys = mem.phys := by rw [shape]
        have freeA : ∀ other, mem.free other = false → memA.free other = false := by
          intro other inUse
          by_cases same : other = frame
          · simp [shape, same]
          · simp [shape, same, inUse]
        refine ⟨free, fun other bound => ?_, fun a other here => ?_, fun addr apart => ?_, fun unmapped other inUse => ?_⟩
        · simpa using entries other bound
        · rw [set_pte_page]
          exact grown.kept a other here
        · rw [swap_phys, ← physA]
          refine grown_phys_untabled memA memG pgdir pgdirG grown addr (apart.imp (freeA _) fun untabled a here => untabled a ?_)
          rw [set_pte_page]
          exact here
        · rw [unmapped]
          exact grown_used memA memG pgdir pgdirG grown other (freeA other inUse)

-- The frame is mapped at its one place and holds no table.
theorem given_apart (ran : pgdirAllocPage mem pgdir la perm = .ok (some page, mem', pgdir')) :
    mem'.free page = false ∧ (∀ a, pgdir'.pageAt a ≠ some page) ∧
      ∀ vpn pte, vpn < nPages → pgdir.entry vpn = some pte → pte.ppn ≠ page := by
  obtain ⟨space', given⟩ := given_page mem mem' pgdir pgdir' foreign outside space la perm page small ran
  have here : pgdir'.Maps page (la / pgSize) := by simp [Pgdir.Maps, given.entry _ small, pteCreate]
  have positive := (count_pos pgdir' page).mpr ⟨la / pgSize, small, here⟩
  refine ⟨(space'.mapped page positive).1, fun a at' => ?_, fun vpn pte bound entry same => ?_⟩
  · have zero := (space'.tables a page at').2.2.2
    omega
  · have before := (count_pos pgdir page).mpr ⟨vpn, bound, by simp [Pgdir.Maps, entry, same]⟩
    have used := (space.mapped page before).1
    rw [given.fresh] at used
    cases used

end Given

-- An address space that shares no frame with itself: what load_icode builds.
structure Image (mem : Mem) (pgdir : Pgdir) (foreign : Nat → Prop) (outside : Nat → Nat) : Prop where
  space : Space mem pgdir foreign outside
  own : ∀ vpn other pte pte', vpn < nPages → other < nPages → pgdir.entry vpn = some pte → pgdir.entry other = some pte' →
    pte.ppn = pte'.ppn → vpn = other

theorem image_phys (mem : Mem) (pgdir : Pgdir) (foreign : Nat → Prop) (outside : Nat → Nat) (image : Image mem pgdir foreign outside)
    (phys : Bytes) : Image { mem with phys := phys } pgdir foreign outside :=
  ⟨space_phys mem pgdir foreign outside image.space phys, image.own⟩

theorem given_image (mem mem' : Mem) (pgdir pgdir' : Pgdir) (foreign : Nat → Prop) (outside : Nat → Nat) (la perm page : Nat)
    (image : Image mem pgdir foreign outside) (small : la / pgSize < nPages)
    (ran : pgdirAllocPage mem pgdir la perm = .ok (some page, mem', pgdir')) :
    Image mem' pgdir' foreign outside ∧ Given mem mem' pgdir pgdir' (la / pgSize) page perm := by
  obtain ⟨space', given⟩ := given_page mem mem' pgdir pgdir' foreign outside image.space la perm page small ran
  obtain ⟨_, _, apart⟩ := given_apart mem mem' pgdir pgdir' foreign outside image.space la perm page small ran
  refine ⟨⟨space', fun vpn other pte pte' bound bound' here there same => ?_⟩, given⟩
  rw [given.entry vpn bound] at here
  rw [given.entry other bound'] at there
  by_cases first : vpn = la / pgSize
  · by_cases second : other = la / pgSize
    · rw [first, second]
    · rw [if_pos first] at here
      rw [if_neg second] at there
      obtain rfl := Option.some.inj here
      exact absurd same.symm (apart other pte' bound' there)
  · rw [if_neg first] at here
    by_cases second : other = la / pgSize
    · rw [if_pos second] at there
      obtain rfl := Option.some.inj there
      exact absurd same (apart vpn pte bound here)
    · rw [if_neg second] at there
      exact image.own vpn other pte pte' bound bound' here there same

end Ucore.Exec
