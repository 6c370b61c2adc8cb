import Ucore.Vmm.PageSteps

set_option autoImplicit false

namespace Ucore.Vmm

open Ucore.Lib

theorem grown_count (mem mem' : Mem) (pgdir pgdir' : Pgdir) (grown : Grown mem mem' pgdir pgdir') (page : Nat) :
    pgdir'.count page = pgdir.count page :=
  count_congr pgdir' pgdir page fun vpn bound => by simp only [Pgdir.Maps, grown.entry vpn bound]

section Grow

variable (mem mem' : Mem) (pgdir pgdir' : Pgdir) (grown : Grown mem mem' pgdir pgdir') (page : Nat) (used : mem.free page = false)

include grown used

theorem grown_no_table (noTable : ∀ a, pgdir.pageAt a ≠ some page) (a : TableAt) : pgdir'.pageAt a ≠ some page := by
  intro here
  rcases grown.fresh a page here with old | ⟨_, free, _⟩
  · exact noTable a old
  · rw [used] at free
    cases free

theorem grown_ref : mem'.ref page = mem.ref page := grown.refs page ((grown_used mem mem' pgdir pgdir' grown page used).trans used.symm)

end Grow

theorem drop_ref_other (mem : Mem) (page other : Nat) (apart : other ≠ page) :
    (mem.dropRef page).ref other = mem.ref other ∧ (mem.dropRef page).free other = mem.free other := by
  unfold Mem.dropRef
  split <;> simp [Mem.setRef, apart]

theorem free_page_space (mem : Mem) (pgdir : Pgdir) (foreign : Nat → Prop) (outside : Nat → Nat) (space : Space mem pgdir foreign outside)
    (page : Nat) (used : mem.free page = false) (noTable : ∀ a, pgdir.pageAt a ≠ some page) (noForeign : ¬ foreign page)
    (unmapped : pgdir.count page = 0) (noOutside : outside page = 0) : ∃ mem', mem.freePage page = .ok mem' ∧ Space mem' pgdir foreign outside := by
  refine ⟨_, by simp only [Mem.freePage, used]; rfl, ?_⟩
  have keep : ∀ other, other ≠ page → mem.free other = false → Function.update mem.free page true other = false := by
    intro other apart free
    simp [apart, free]
  refine ⟨space.once, fun a other here => ?_, fun other positive => ?_, fun other absent away => ?_, fun other claimed => ?_,
    fun other some => ?_⟩
  · have apart : other ≠ page := by
      rintro rfl
      exact noTable a here
    exact (space.tables a other here).imp_left (keep other apart)
  · have apart : other ≠ page := by
      rintro rfl
      omega
    exact (space.mapped other positive).imp_left (keep other apart)
  · by_cases same : other = page
    · subst same
      simp [unmapped, noOutside]
    · simp only [Function.update_of_ne same]
      exact space.refs other absent away
  · have apart : other ≠ page := by
      rintro rfl
      exact noForeign claimed
    exact keep other apart (space.foreignUsed other claimed)
  · have apart : other ≠ page := by
      rintro rfl
      omega
    exact keep other apart (space.outsideUsed other some)

section Insert

variable (mem : Mem) (pgdir : Pgdir) (foreign : Nat → Prop) (outside : Nat → Nat) (space : Space mem pgdir foreign outside)
  (page la perm : Nat) (used : mem.free page = false) (small : la / pgSize < nPages)

include space used small

theorem page_insert_ok (noTable : ∀ a, pgdir.pageAt a ≠ some page) (noForeign : ¬ foreign page) :
    (∃ mem' pgdir', Grown mem mem' pgdir pgdir' ∧ pageInsert mem pgdir page la perm = .ok (eNoMem, mem', pgdir')) ∨
    ∃ mem' pgdir', Grown mem mem' pgdir pgdir' ∧ pgdir'.lookup la = some (pgdir.entry (la / pgSize)) ∧
      pageInsert mem pgdir page la perm = .ok (0, mem'.swapRef page (pgdir.entry (la / pgSize)),
        pgdir'.setPte la (some (pteCreate page (pteV ||| perm)))) := by
  obtain ⟨placed, mem', pgdir', got, grown, reached⟩ := get_pte_spec mem pgdir la
  cases placed with
  | false => exact .inl ⟨mem', pgdir', grown, by simp [pageInsert, got]⟩
  | true =>
      obtain ⟨old, found⟩ := reached rfl
      have same : old = pgdir.entry (la / pgSize) := by
        rw [← grown.entry (la / pgSize) small, ← lookup_entry, found, Option.join_some]
      rw [← same]
      refine .inr ⟨mem', pgdir', grown, found, ?_⟩
      have space' := grown_space mem mem' pgdir pgdir' foreign outside space grown
      have held := hold_space mem' pgdir' foreign outside page space' (grown_used mem mem' pgdir pgdir' grown page used)
        (grown_no_table mem mem' pgdir pgdir' grown page used noTable) noForeign
      cases old with
      | none => simp [pageInsert, got, found, Mem.swapRef]
      | some pte =>
          by_cases again : pte.ppn = page
          · -- The entry had a reference of its own, so the count does not reach zero.
            have positive := removed_ref mem' pgdir' foreign outside space' la pte found small
            rw [again] at positive
            have more : mem'.ref page + 1 ≠ 1 := by omega
            simp [pageInsert, got, found, Mem.swapRef, again, Mem.dropRef, Mem.setRef, more]
          · have removed := page_remove_pte_ok _ pgdir' foreign _ held la pte found small
            simp [pageInsert, got, found, Mem.swapRef, again, removed, set_pte_twice]

theorem page_insert_space (noTable : ∀ a, pgdir.pageAt a ≠ some page) (noForeign : ¬ foreign page) (ret : Int) (mem' : Mem)
    (pgdir' : Pgdir) (ran : pageInsert mem pgdir page la perm = .ok (ret, mem', pgdir')) :
    Space mem' pgdir' foreign outside ∧ ∀ vpn, vpn < nPages → pgdir'.entry vpn =
      if ret = 0 ∧ vpn = la / pgSize then some (pteCreate page (pteV ||| perm)) else pgdir.entry vpn := by
  rcases page_insert_ok mem pgdir foreign outside space page la perm used small noTable noForeign with
    ⟨memG, pgdirG, grown, result⟩ | ⟨memG, pgdirG, grown, found, result⟩
  · rw [result] at ran
    simp only [Except.ok.injEq, Prod.mk.injEq] at ran
    obtain ⟨rfl, rfl, rfl⟩ := ran
    refine ⟨grown_space mem memG pgdir pgdirG foreign outside space grown, fun vpn bound => ?_⟩
    rw [if_neg (by simp [eNoMem]), grown.entry vpn bound]
  · rw [result] at ran
    simp only [Except.ok.injEq, Prod.mk.injEq] at ran
    obtain ⟨rfl, rfl, rfl⟩ := ran
    refine ⟨?_, fun vpn bound => ?_⟩
    · exact swap_space memG pgdirG foreign outside page la _ _ (grown_space mem memG pgdir pgdirG foreign outside space grown)
        (grown_used mem memG pgdir pgdirG grown page used) (grown_no_table mem memG pgdir pgdirG grown page used noTable)
        noForeign found small
    · rw [set_pte_entry pgdirG la _ _ found small vpn bound]
      simp only [true_and, grown.entry vpn bound]

end Insert

-- The pages given back in a step: those whose last mapping went.
def Returned (before after : Nat → Nat) (log : List Nat) : Prop :=
  ∀ page, log.count page = if 0 < before page ∧ after page = 0 then 1 else 0

theorem returned_nothing (before after : Nat → Nat) (stays : ∀ page, 0 < before page → 0 < after page) : Returned before after [] := by
  intro page
  rw [if_neg]
  · rfl
  · rintro ⟨positive, zero⟩
    have more := stays page positive
    omega

theorem drop_freed (mem : Mem) (page : Nat) :
    (mem.dropRef page).freed = (if mem.ref page = 1 then [page] else []) ++ mem.freed := by
  unfold Mem.dropRef
  split <;> simp [Mem.setRef, *]

section Returns

variable (mem : Mem) (pgdir : Pgdir) (foreign : Nat → Prop) (outside : Nat → Nat) (space : Space mem pgdir foreign outside)
  (la : Nat) (small : la / pgSize < nPages)

include space small

theorem remove_returned (pte : Pte) (found : pgdir.lookup la = some (some pte)) :
    Returned (fun page => pgdir.count page + outside page) (fun page => (pgdir.setPte la none).count page + outside page)
      (if mem.ref pte.ppn = 1 then [pte.ppn] else []) := by
  intro page
  have changed := removed_count pgdir la pte found small page
  have ref := removed_ref mem pgdir foreign outside space la pte found small
  show _ = if 0 < pgdir.count page + outside page ∧ (pgdir.setPte la none).count page + outside page = 0 then 1 else 0
  by_cases here : pte.ppn = page
  · subst here
    rw [if_pos rfl] at changed
    by_cases last : mem.ref pte.ppn = 1
    · rw [if_pos last, if_pos ⟨by omega, by omega⟩]
      simp
    · rw [if_neg last, if_neg (by omega)]
      rfl
  · rw [if_neg here] at changed
    have stays : ¬ (0 < pgdir.count page + outside page ∧ (pgdir.setPte la none).count page + outside page = 0) := by omega
    rw [if_neg stays]
    split
    · exact List.count_eq_zero.mpr (by simp [Ne.symm here])
    · rfl

theorem swap_returned (page perm : Nat) (old : Option Pte) (used : mem.free page = false) (noTable : ∀ a, pgdir.pageAt a ≠ some page)
    (noForeign : ¬ foreign page) (found : pgdir.lookup la = some old) : ∃ log, (mem.swapRef page old).freed = log ++ mem.freed ∧
      Returned (fun page => pgdir.count page + outside page)
        (fun other => (pgdir.setPte la (some (pteCreate page perm))).count other + outside other) log := by
  have held := hold_space mem pgdir foreign outside page space used noTable noForeign
  cases old with
  | none =>
      refine ⟨[], rfl, returned_nothing _ _ fun other positive => ?_⟩
      have changed := set_pte_maps pgdir la other (some (pteCreate page perm)) none found small
      simp only [Option.map_none, reduceCtorEq, if_false, Nat.add_zero] at changed
      omega
  | some pte =>
      refine ⟨_, drop_freed _ pte.ppn, fun other => ?_⟩
      rw [remove_returned _ pgdir foreign _ held la small pte found other]
      have cleared : (pgdir.setPte la none).lookup la = some none := by
        rw [set_pte_lookup pgdir la none (some pte) found, if_pos ⟨rfl, rfl, rfl⟩]
      have changed := set_pte_maps (pgdir.setPte la none) la other (some (pteCreate page perm)) none cleared small
      rw [set_pte_twice] at changed
      simp only [Option.map_none, reduceCtorEq, if_false, Nat.add_zero, Option.map_some, Option.some.injEq] at changed
      have target : (pteCreate page perm).ppn = page := rfl
      rw [target] at changed
      show (if 0 < pgdir.count other + holding outside page other ∧
        (pgdir.setPte la none).count other + holding outside page other = 0 then 1 else 0) =
        if 0 < pgdir.count other + outside other ∧
          (pgdir.setPte la (some (pteCreate page perm))).count other + outside other = 0 then 1 else 0
      by_cases here : page = other
      · subst here
        rw [if_pos rfl] at changed
        rw [if_neg (by simp [holding]), if_neg (by omega)]
      · rw [if_neg here, Nat.add_zero] at changed
        simp only [holding, if_neg (Ne.symm here), Nat.add_zero, changed]

theorem page_insert_returned (page perm : Nat) (used : mem.free page = false) (noTable : ∀ a, pgdir.pageAt a ≠ some page)
    (noForeign : ¬ foreign page) (ret : Int) (mem' : Mem) (pgdir' : Pgdir)
    (ran : pageInsert mem pgdir page la perm = .ok (ret, mem', pgdir')) : ∃ log, mem'.freed = log ++ mem.freed ∧
      Returned (fun other => pgdir.count other + outside other) (fun other => pgdir'.count other + outside other) log := by
  rcases page_insert_ok mem pgdir foreign outside space page la perm used small noTable noForeign with
    ⟨memG, pgdirG, grown, result⟩ | ⟨memG, pgdirG, grown, found, result⟩
  · rw [result] at ran
    simp only [Except.ok.injEq, Prod.mk.injEq] at ran
    obtain ⟨rfl, rfl, rfl⟩ := ran
    refine ⟨[], grown.freed, returned_nothing _ _ fun other positive => ?_⟩
    rwa [grown_count mem memG pgdir pgdirG grown other]
  · rw [result] at ran
    simp only [Except.ok.injEq, Prod.mk.injEq] at ran
    obtain ⟨rfl, rfl, rfl⟩ := ran
    obtain ⟨log, freed, returned⟩ := swap_returned memG pgdirG foreign outside
      (grown_space mem memG pgdir pgdirG foreign outside space grown) la small page (pteV ||| perm) _
      (grown_used mem memG pgdir pgdirG grown page used) (grown_no_table mem memG pgdir pgdirG grown page used noTable) noForeign found
    refine ⟨log, by rw [freed, grown.freed], ?_⟩
    simp only [grown_count mem memG pgdir pgdirG grown] at returned
    exact returned

end Returns

section Alloc

variable (mem : Mem) (pgdir : Pgdir) (foreign : Nat → Prop) (outside : Nat → Nat) (space : Space mem pgdir foreign outside)
  (la perm : Nat) (small : la / pgSize < nPages)

include space small

theorem pgdir_alloc_page_ok : ∃ page mem' pgdir', pgdirAllocPage mem pgdir la perm = .ok (page, mem', pgdir') ∧
    Space mem' pgdir' foreign outside ∧ (∀ vpn, vpn < nPages → pgdir'.entry vpn =
      if page.isSome ∧ vpn = la / pgSize then page.map fun page => pteCreate page (pteV ||| perm) else pgdir.entry vpn) ∧
    (page.isSome → ∃ log, mem'.freed = log ++ mem.freed ∧
      Returned (fun page => pgdir.count page + outside page) (fun page => pgdir'.count page + outside page) log) := by
  unfold pgdirAllocPage
  cases got : mem.allocPage with
  | none => exact ⟨none, mem, pgdir, rfl, space, by simp, by simp⟩
  | some found =>
      obtain ⟨page, memA⟩ := found
      obtain ⟨spaceA, used, unref⟩ := alloc_space mem pgdir foreign outside space page memA got
      obtain ⟨free, shape⟩ := alloc_page_spec mem memA page got
      obtain ⟨noTable, noForeign, noOutside, unmapped, _⟩ := free_unused mem pgdir foreign outside space page free
      rcases page_insert_ok memA pgdir foreign outside spaceA page la perm used small noTable noForeign with
        ⟨memG, pgdirG, grown, result⟩ | ⟨memG, pgdirG, grown, found, result⟩
      · obtain ⟨spaceG, entries⟩ := page_insert_space memA pgdir foreign outside spaceA page la perm used small noTable noForeign
          eNoMem memG pgdirG result
        have unmappedG : pgdirG.count page = 0 := by
          rw [count_congr pgdirG pgdir page fun vpn bound => by simp only [Pgdir.Maps, grown.entry vpn bound], unmapped]
        obtain ⟨memF, freed, spaceF⟩ := free_page_space memG pgdirG foreign outside spaceG page
          (grown_used memA memG pgdir pgdirG grown page used)
          (grown_no_table memA memG pgdir pgdirG grown page used noTable) noForeign unmappedG noOutside
        refine ⟨none, memF, pgdirG, ?_, spaceF, fun vpn bound => ?_, by simp⟩
        · simp [result, freed, eNoMem]
        · simp [grown.entry vpn bound]
      · obtain ⟨spaceI, entries⟩ := page_insert_space memA pgdir foreign outside spaceA page la perm used small noTable noForeign
          0 _ _ result
        have ref : (memG.swapRef page (pgdir.entry (la / pgSize))).ref page = 1 := by
          have start : memG.ref page = 0 := (grown_ref memA memG pgdir pgdirG grown page used).trans unref
          cases before : pgdir.entry (la / pgSize) with
          | none => simp [Mem.swapRef, Mem.setRef, start]
          | some pte =>
              have apart : page ≠ pte.ppn := by
                rintro rfl
                have mapped := (count_pos pgdir pte.ppn).mpr ⟨la / pgSize, small, by simp [Pgdir.Maps, before]⟩
                omega
              rw [Mem.swapRef, (drop_ref_other _ pte.ppn page apart).1]
              simp [Mem.setRef, start]
        refine ⟨some page, _, _, ?_, spaceI, fun vpn bound => ?_, fun _ => ?_⟩
        · simp [result, ref]
        · simpa using entries vpn bound
        · obtain ⟨log, freed, returned⟩ := page_insert_returned memA pgdir foreign outside spaceA la small page perm used noTable
            noForeign 0 _ _ result
          exact ⟨log, by rw [freed, shape], returned⟩

end Alloc

end Ucore.Vmm
