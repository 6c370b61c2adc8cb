import Ucore.Vmm.FrameCounts
import Ucore.Vmm.SpaceExit

set_option autoImplicit false

namespace Ucore.Vmm

open Ucore.Lib

-- What an address space has for itself: its tables, and the frames that only it maps.
def Spaces.Owns {m : Nat} (spaces : Spaces m) (i : Fin m) (mm : Mm) (page : Nat) : Prop :=
  (∃ a, mm.pgdir.pageAt a = some page) ∨
    (∃ vpn, vpn < nPages ∧ mm.pgdir.Maps page vpn) ∧
      ∀ j other, j ≠ i → spaces.mms j = some other → ∀ vpn, vpn < nPages → ¬ other.pgdir.Maps page vpn

-- exit_mmap and put_pgdir return, and give back what the address space owns,
-- each page once, and nothing else.
def Spaces.TornDown {m : Nat} (spaces : Spaces m) (i : Fin m) (mm : Mm) : Prop :=
  ∃ mem' mm' mem'' log, exitMmap spaces.mem mm = .ok (mem', mm') ∧ putPgdir mem' mm' = .ok mem'' ∧
    mem''.freed = log ++ spaces.mem.freed ∧ log.Nodup ∧ ∀ page, page ∈ log ↔ spaces.Owns i mm page

namespace Spaces

variable {m : Nat} (kernel : Nat → Prop) (spaces : Spaces m) (inv : Inv kernel spaces) (i : Fin m) (mm : Mm)
  (here : spaces.mms i = some mm)

theorem outside_unmapped (page : Nat) : outsideOf spaces.pgdirs i page = 0 ↔
    ∀ j other, j ≠ i → spaces.mms j = some other → ∀ vpn, vpn < nPages → ¬ other.pgdir.Maps page vpn := by
  rw [outsideOf, Finset.sum_eq_zero_iff]
  constructor
  · intro zero j other apart atJ vpn bound maps
    have none' := zero j (Finset.mem_erase.mpr ⟨apart, Finset.mem_univ j⟩)
    have positive := (count_pos other.pgdir page).mpr ⟨vpn, bound, maps⟩
    simp only [pgdirs, atJ, Option.map_some, countIn, Option.elim_some] at none'
    omega
  · intro away j inside
    cases atJ : spaces.mms j with
    | none => simp [pgdirs, atJ, countIn]
    | some other =>
        simp only [pgdirs, atJ, Option.map_some, countIn, Option.elim_some]
        by_contra some
        obtain ⟨vpn, bound, maps⟩ := (count_pos other.pgdir page).mp (Nat.pos_of_ne_zero some)
        exact away j other (Finset.ne_of_mem_erase inside) atJ vpn bound maps

include inv here

-- What the two calls give back in any case: the frames that only this space maps,
-- the pages that the walks over the areas close, and the root.
theorem exit_spec : ∃ pgdir mem' mm' mem'' log, (∀ a, pgdir.pageAt a = mm.pgdir.pageAt a) ∧
    exitMmap spaces.mem mm = .ok (mem', mm') ∧ putPgdir mem' mm' = .ok mem'' ∧
    mem''.freed = mm.pgdir.page :: ((closeAll pgdir (mm.mmapList.flatMap Vma.visits)).1.reverse ++ log) ++ spaces.mem.freed ∧
    ∀ page, log.count page = if 0 < mm.pgdir.count page ∧ outsideOf spaces.pgdirs i page = 0 then 1 else 0 := by
  have space := mm_space kernel spaces inv i mm here
  have areas := inv.areas i mm here
  obtain ⟨memU, pgdir, log, unmapped, space', pages, entries, _, freed, returned⟩ := unmap_all_spec spaces.mem mm _ _ space areas
  have gone := covered_unmapped mm pgdir (inv.covered i mm here) entries
  obtain ⟨mem', mem'', exited, put, freedC, _⟩ := exit_all_put memU mm pgdir _ _ space' areas (unmapped_emptied pgdir gone)
  have rootPage : pgdir.page = mm.pgdir.page := Option.some.inj (pages .root)
  refine ⟨pgdir, mem', _, mem'', log, pages, exit_mmap_ok _ memU mem' mm pgdir _ unmapped exited, put, ?_,
    fun page => ?_⟩
  · rw [freedC, freed, rootPage]
    simp
  · rw [returned page]
    simp only [unmapped_count pgdir gone, Nat.zero_add]
    by_cases elsewhere : outsideOf spaces.pgdirs i page = 0
    · simp [elsewhere]
    · simp [elsewhere]

theorem torn_down_iff : spaces.TornDown i mm ↔ mm.TablesClose := by
  have space := mm_space kernel spaces inv i mm here
  obtain ⟨pgdir, mem', mm', mem'', log, pages, exited, put, freed, counts⟩ := exit_spec kernel spaces inv i mm here
  generalize visited : mm.mmapList.flatMap Vma.visits = visits at freed
  have once : pgdir.Once := fun a b page atA atB => space.once a b page (by rwa [← pages]) (by rwa [← pages])
  have places := close_all_place visits pgdir once
  have distinct := close_all_distinct visits pgdir once fun visit inside => by
    rw [← visited] at inside
    obtain ⟨vma, _, inside⟩ := List.mem_flatMap.mp inside
    exact visits_distinct vma visit inside
  have frame : ∀ page, page ∈ log ↔ 0 < mm.pgdir.count page ∧ outsideOf spaces.pgdirs i page = 0 := by
    intro page
    rw [← List.count_pos_iff, counts page]
    split <;> simp [*]
  have frameNoTable : ∀ page, page ∈ log → ∀ a, mm.pgdir.pageAt a ≠ some page := by
    intro page inside a at'
    have unmapped := (space.tables a page at').2.2.2
    have mapped := ((frame page).mp inside).1
    omega
  have owns : ∀ page, spaces.Owns i mm page ↔ (∃ a, mm.pgdir.pageAt a = some page) ∨ page ∈ log := by
    intro page
    rw [frame, count_pos, outside_unmapped spaces i page]
    rfl
  have rootAt : mm.pgdir.pageAt .root = some mm.pgdir.page := rfl
  have distinctAll : (mm.pgdir.page :: ((closeAll pgdir visits).1.reverse ++ log)).Nodup := by
    refine List.nodup_cons.mpr ⟨fun inside => ?_, List.nodup_append.mpr ⟨List.nodup_reverse.mpr distinct, ?_, ?_⟩⟩
    · rcases List.mem_append.mp inside with given | mapped
      · obtain ⟨a, apart, at'⟩ := places _ (by simpa using given)
        exact apart (space.once a .root _ (by rwa [← pages]) rootAt)
      · exact frameNoTable _ mapped .root rootAt
    · refine List.nodup_iff_count_le_one.mpr fun page => ?_
      rw [counts page]
      split <;> omega
    · rintro page given other mapped rfl
      obtain ⟨a, _, at'⟩ := places page (by simpa using given)
      exact frameNoTable page mapped a (by rwa [← pages])
  -- Everything is given back when every directory and every table is.
  have complete : spaces.TornDown i mm ↔ ∀ a page, a ≠ .root → pgdir.pageAt a = some page → page ∈ (closeAll pgdir visits).1 := by
    constructor
    · rintro ⟨memO, mmO, memO', logO, exitedO, putO, freedO, _, ownsO⟩ a page apart at'
      rw [exited] at exitedO
      obtain ⟨rfl, rfl⟩ := Prod.mk.inj (Except.ok.inj exitedO)
      rw [put] at putO
      obtain rfl := Except.ok.inj putO
      rw [freed] at freedO
      obtain rfl := List.append_cancel_right freedO
      have inside := (ownsO page).mpr ((owns page).mpr (.inl ⟨a, by rwa [← pages]⟩))
      rcases List.mem_cons.mp inside with rfl | rest
      · exact absurd (once a .root _ at' (by rw [pages]; exact rootAt)) apart
      · rcases List.mem_append.mp rest with given | mapped
        · simpa using given
        · exact absurd (by rwa [← pages]) (frameNoTable page mapped a)
    · intro all
      refine ⟨mem', mm', mem'', _, exited, put, freed, distinctAll, fun page => ?_⟩
      rw [owns page]
      constructor
      · intro inside
        rcases List.mem_cons.mp inside with rfl | rest
        · exact .inl ⟨.root, rootAt⟩
        · rcases List.mem_append.mp rest with given | mapped
          · obtain ⟨a, _, at'⟩ := places page (by simpa using given)
            exact .inl ⟨a, by rwa [← pages]⟩
          · exact .inr mapped
      · rintro (⟨a, at'⟩ | mapped)
        · by_cases root : a = .root
          · subst root
            obtain rfl := Option.some.inj at'
            simp
          · have given := all a page root (by rwa [pages])
            simp [given]
        · simp [mapped]
  rw [complete, ← visited]
  exact tables_given_iff mm pgdir once pages

end Spaces

variable {m : Nat}

theorem teardown_exact (mem : Mem) (boot : ∀ page, mem.free page = true → mem.ref page = 0) (spaceCalls : List (SpaceCall m))
    (spaces : Spaces m) (ran : run Spaces.step (Spaces.boot mem) spaceCalls = some spaces) (i : Fin m) (mm : Mm)
    (here : spaces.mms i = some mm) : spaces.TornDown i mm ↔ mm.TablesClose :=
  Spaces.torn_down_iff _ spaces (Spaces.run_inv mem boot spaceCalls spaces ran) i mm here

-- Two areas in different directories.
def apartCalls : List (SpaceCall 1) :=
  [.create 0, .map 0 0x800000 0x3000 0, .map 0 0x40000000 0x1000 0, .alloc 0 0x800000 26, .alloc 0 0x802000 30, .alloc 0 0x40000000 22]

-- Two areas in different tables of one directory.
def togetherCalls : List (SpaceCall 1) :=
  [.create 0, .map 0 0x800000 0x1000 0, .map 0 0xC00000 0x1000 0, .alloc 0 0x800000 30, .alloc 0 0xC00000 30]

def closesAfter (spaces : Spaces 1) : Option Bool := (spaces.mms 0).map Mm.tablesClose

theorem teardown_exact_apart : ∃ (spaces : Spaces 1) (mm : Mm),
    run Spaces.step (Spaces.boot Frames.smallMem) apartCalls = some spaces ∧ spaces.mms 0 = some mm ∧ spaces.TornDown 0 mm := by
  have facts : (run Spaces.step (Spaces.boot Frames.smallMem) apartCalls).bind closesAfter = some true := by decide +kernel
  obtain ⟨spaces, ran, after⟩ := Option.bind_eq_some_iff.mp facts
  obtain ⟨mm, here, closed⟩ := Option.map_eq_some_iff.mp after
  exact ⟨spaces, mm, ran, here,
    (teardown_exact Frames.smallMem (fun _ _ => rfl) apartCalls spaces ran 0 mm here).mpr ((tables_close_iff mm).mp closed)⟩

theorem teardown_leaks_table : ∃ (spaces : Spaces 1) (mm : Mm),
    run Spaces.step (Spaces.boot Frames.smallMem) togetherCalls = some spaces ∧ spaces.mms 0 = some mm ∧ ¬ spaces.TornDown 0 mm := by
  have facts : (run Spaces.step (Spaces.boot Frames.smallMem) togetherCalls).bind closesAfter = some false := by decide +kernel
  obtain ⟨spaces, ran, after⟩ := Option.bind_eq_some_iff.mp facts
  obtain ⟨mm, here, closed⟩ := Option.map_eq_some_iff.mp after
  have inv := Spaces.run_inv Frames.smallMem (fun _ _ => rfl) togetherCalls spaces ran
  refine ⟨spaces, mm, ran, here, fun torn => ?_⟩
  have closes := (tables_close_iff mm).mpr ((Spaces.torn_down_iff _ spaces inv 0 mm here).mp torn)
  rw [closed] at closes
  cases closes

end Ucore.Vmm
