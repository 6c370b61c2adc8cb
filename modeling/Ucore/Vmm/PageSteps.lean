import Ucore.Vmm.Space

set_option autoImplicit false

namespace Ucore.Vmm

open Ucore.Lib

theorem get_dir_spec (mem mem' : Mem) (pgdir : Pgdir) (la : Nat) (dir : PageDir) (got : getDir mem pgdir la = some (dir, mem')) :
    Grown mem mem' pgdir (pgdir.setDir (pdx1 la) (some dir)) := by
  unfold getDir at got
  cases atDir : pgdir.entries (pdx1 la) with
  | some old =>
      obtain ⟨rfl, rfl⟩ := by simpa [atDir] using got
      have same : pgdir.setDir (pdx1 la) (some old) = pgdir := by rw [← atDir, Pgdir.setDir, Function.update_eq_self]
      rw [same]
      exact grown_refl mem pgdir
  | none =>
      simp only [atDir] at got
      obtain ⟨⟨page, memT⟩, built, equal⟩ := Option.map_eq_some_iff.mp got
      simp only [Prod.mk.injEq] at equal
      obtain ⟨rfl, rfl⟩ := equal
      refine table_grown mem memT pgdir _ page (.dir (pdx1 la)) built (by simp [Pgdir.pageAt, atDir]) (fun vpn _ => ?_)
        (by simp [Pgdir.pageAt, Pgdir.setDir]) (fun a apart => ?_)
      · simp only [Pgdir.entry, Pgdir.lookup, Pgdir.setDir]
        by_cases one : pdx1 (vpn * pgSize) = pdx1 la
        · simp [one, atDir]
        · simp [one]
      · cases a with
        | root => rfl
        | dir d1 =>
            have other : d1 ≠ pdx1 la := by
              rintro rfl
              exact apart rfl
            simp [Pgdir.pageAt, Pgdir.setDir, other]
        | table d1 d0 =>
            by_cases one : d1 = pdx1 la
            · simp [Pgdir.pageAt, Pgdir.setDir, PageDir.tablePage, one, atDir]
            · simp [Pgdir.pageAt, Pgdir.setDir, one]

theorem get_table_spec (mem mem' : Mem) (pgdir : Pgdir) (la : Nat) (dir : PageDir) (table : PageTable)
    (atDir : pgdir.entries (pdx1 la) = some dir) (got : getTable mem dir la = some (table, mem')) :
    Grown mem mem' pgdir (pgdir.setDir (pdx1 la) (some (dir.setTable (pdx0 la) (some table)))) := by
  unfold getTable at got
  cases atTable : dir.entries (pdx0 la) with
  | some old =>
      obtain ⟨rfl, rfl⟩ := by simpa [atTable] using got
      have sameDir : dir.setTable (pdx0 la) (some old) = dir := by rw [← atTable, PageDir.setTable, Function.update_eq_self]
      have same : pgdir.setDir (pdx1 la) (some dir) = pgdir := by rw [← atDir, Pgdir.setDir, Function.update_eq_self]
      rw [sameDir, same]
      exact grown_refl mem pgdir
  | none =>
      simp only [atTable] at got
      obtain ⟨⟨page, memT⟩, built, equal⟩ := Option.map_eq_some_iff.mp got
      simp only [Prod.mk.injEq] at equal
      obtain ⟨rfl, rfl⟩ := equal
      refine table_grown mem memT pgdir _ page (.table (pdx1 la) (pdx0 la)) built
        (by simp [Pgdir.pageAt, PageDir.tablePage, atDir, atTable]) (fun vpn _ => ?_)
        (by simp [Pgdir.pageAt, PageDir.tablePage, Pgdir.setDir, PageDir.setTable]) (fun a apart => ?_)
      · simp only [Pgdir.entry, Pgdir.lookup, Pgdir.setDir, PageDir.setTable]
        by_cases one : pdx1 (vpn * pgSize) = pdx1 la
        · by_cases zero : pdx0 (vpn * pgSize) = pdx0 la
          · simp [one, zero, atDir, atTable]
          · simp [one, zero, atDir]
        · simp [one]
      · cases a with
        | root => rfl
        | dir d1 =>
            by_cases one : d1 = pdx1 la
            · subst one
              simp [Pgdir.pageAt, Pgdir.setDir, PageDir.setTable, atDir]
            · simp [Pgdir.pageAt, Pgdir.setDir, one]
        | table d1 d0 =>
            by_cases one : d1 = pdx1 la
            · subst one
              have other : d0 ≠ pdx0 la := by
                rintro rfl
                exact apart rfl
              simp [Pgdir.pageAt, Pgdir.setDir, PageDir.tablePage, PageDir.setTable, other, atDir]
            · simp [Pgdir.pageAt, Pgdir.setDir, one]

theorem get_pte_spec (mem : Mem) (pgdir : Pgdir) (la : Nat) : ∃ placed mem' pgdir', getPte mem pgdir la = (placed, mem', pgdir') ∧
    Grown mem mem' pgdir pgdir' ∧ (placed = true → ∃ old, pgdir'.lookup la = some old) := by
  unfold getPte
  cases gotDir : getDir mem pgdir la with
  | none => exact ⟨false, mem, pgdir, rfl, grown_refl mem pgdir, by simp⟩
  | some found =>
      obtain ⟨dir, memD⟩ := found
      have first := get_dir_spec mem memD pgdir la dir gotDir
      cases gotTable : getTable memD dir la with
      | none => exact ⟨false, memD, _, by simp only [gotTable], first, by simp⟩
      | some found =>
          obtain ⟨table, memT⟩ := found
          have second := get_table_spec memD memT (pgdir.setDir (pdx1 la) (some dir)) la dir table (by simp [Pgdir.setDir]) gotTable
          have whole := grown_trans mem memD memT _ _ _ first second
          have same : (pgdir.setDir (pdx1 la) (some dir)).setDir (pdx1 la) (some (dir.setTable (pdx0 la) (some table))) =
              pgdir.setDir (pdx1 la) (some (dir.setTable (pdx0 la) (some table))) := by simp [Pgdir.setDir]
          rw [same] at whole
          exact ⟨true, memT, _, by simp only [gotTable], whole, fun _ => ⟨table.entries (ptx la), by simp [Pgdir.lookup, Pgdir.setDir, PageDir.setTable]⟩⟩

-- One entry of a table that is there is written.
theorem set_pte_maps (pgdir : Pgdir) (la page : Nat) (pte old : Option Pte) (found : pgdir.lookup la = some old)
    (small : la / pgSize < nPages) :
    pgdir.count page + (if pte.map Pte.ppn = some page then 1 else 0) =
      (pgdir.setPte la pte).count page + (if old.map Pte.ppn = some page then 1 else 0) := by
  have now : (pgdir.setPte la pte).entry (la / pgSize) = pte := by
    rw [set_pte_entry pgdir la pte old found small (la / pgSize) small, if_pos rfl]
  have before : pgdir.entry (la / pgSize) = old := by rw [← lookup_entry, found, Option.join_some]
  have changed := count_change pgdir (pgdir.setPte la pte) page (la / pgSize) small fun vpn bound apart => by
    simp only [Pgdir.Maps, set_pte_entry pgdir la pte old found small vpn bound, if_neg apart]
  simp only [Pgdir.Maps, now, before] at changed
  exact changed

-- One reference less; the last one gives the page back.
def Mem.dropRef (mem : Mem) (page : Nat) : Mem :=
  if mem.ref page = 1 then
    { mem with free := Function.update mem.free page true, ref := Function.update mem.ref page 0, freed := page :: mem.freed }
  else mem.setRef page (mem.ref page - 1)

theorem removed_count (pgdir : Pgdir) (la : Nat) (pte : Pte) (found : pgdir.lookup la = some (some pte)) (small : la / pgSize < nPages)
    (page : Nat) : pgdir.count page = (pgdir.setPte la none).count page + (if pte.ppn = page then 1 else 0) := by
  have changed := set_pte_maps pgdir la page none (some pte) found small
  simpa using changed

section Remove

variable (mem : Mem) (pgdir : Pgdir) (foreign : Nat → Prop) (outside : Nat → Nat) (space : Space mem pgdir foreign outside)
  (la : Nat) (pte : Pte) (found : pgdir.lookup la = some (some pte)) (small : la / pgSize < nPages)

include space found small

theorem removed_ref : mem.ref pte.ppn = ((pgdir.setPte la none).count pte.ppn + outside pte.ppn : Nat) + 1 := by
  have mine := removed_count pgdir la pte found small pte.ppn
  rw [if_pos rfl] at mine
  obtain ⟨_, own⟩ := space.mapped pte.ppn (by omega)
  have noTable : ∀ a, pgdir.pageAt a ≠ some pte.ppn := by
    intro a here
    have unmapped := (space.tables a pte.ppn here).2.2.2
    omega
  rw [space.refs pte.ppn noTable own, mine]
  push_cast
  omega

theorem page_remove_pte_ok : pageRemovePte mem pgdir la = .ok (mem.dropRef pte.ppn, pgdir.setPte la none) := by
  have mine := removed_count pgdir la pte found small pte.ppn
  rw [if_pos rfl] at mine
  obtain ⟨used, _⟩ := space.mapped pte.ppn (by omega)
  simp only [pageRemovePte, found, Mem.dropRef]
  by_cases last : mem.ref pte.ppn = 1
  · simp [Mem.setRef, Mem.freePage, last, used]
  · have more : mem.ref pte.ppn - 1 ≠ 0 := by omega
    simp [Mem.setRef, more, last]

theorem page_remove_pte_space : Space (mem.dropRef pte.ppn) (pgdir.setPte la none) foreign outside := by
  have counts := removed_count pgdir la pte found small
  have mine := counts pte.ppn
  rw [if_pos rfl] at mine
  have smaller : ∀ page, (pgdir.setPte la none).count page ≤ pgdir.count page := by
    intro page
    rw [counts page]
    exact Nat.le_add_right _ _
  obtain ⟨used, own⟩ := space.mapped pte.ppn (by omega)
  have ref := removed_ref mem pgdir foreign outside space la pte found small
  have pages := set_pte_page pgdir la none
  have noTable : ∀ a page, pgdir.pageAt a = some page → page ≠ pte.ppn := by
    rintro a page here rfl
    have unmapped := (space.tables a pte.ppn here).2.2.2
    omega
  -- A page with a reference left is not the one that goes.
  have stays : ∀ page, mem.free page = false → (page = pte.ppn → mem.ref pte.ppn ≠ 1) → (mem.dropRef pte.ppn).free page = false := by
    intro page free held
    unfold Mem.dropRef
    by_cases last : mem.ref pte.ppn = 1
    · have other : page ≠ pte.ppn := fun same => held same last
      simp [last, other, free]
    · simp [last, Mem.setRef, free]
  refine ⟨fun a b page hereA hereB => ?_, fun a page here => ?_, fun page positive => ?_, fun page absent away => ?_,
    fun page claimed => ?_, fun page some => ?_⟩
  · rw [pages] at hereA hereB
    exact space.once a b page hereA hereB
  · rw [pages] at here
    obtain ⟨free, foreigner, clear, unmapped⟩ := space.tables a page here
    have less := smaller page
    exact ⟨stays page free fun same => absurd same (noTable a page here), foreigner, clear, by omega⟩
  · have before := space.mapped page (Nat.lt_of_lt_of_le positive (smaller page))
    refine ⟨stays page before.1 ?_, before.2⟩
    rintro rfl
    omega
  · by_cases other : page = pte.ppn
    · subst other
      unfold Mem.dropRef
      by_cases last : mem.ref pte.ppn = 1
      · simp only [last, if_true, Function.update_self]
        omega
      · simp only [last, if_false, Mem.setRef, Function.update_self]
        omega
    · have same : (mem.dropRef pte.ppn).ref page = mem.ref page := by
        unfold Mem.dropRef
        split <;> simp [Mem.setRef, other]
      have before := space.refs page (fun a here => absent a ((pages a).trans here)) away
      rw [counts page, if_neg (Ne.symm other), Nat.add_zero] at before
      rw [same, before]
  · refine stays page (space.foreignUsed page claimed) ?_
    rintro rfl
    exact absurd claimed own
  · refine stays page (space.outsideUsed page some) ?_
    rintro rfl
    omega

end Remove

theorem no_remove (mem : Mem) (pgdir : Pgdir) (la : Nat) (absent : (pgdir.lookup la).join = none) :
    pageRemovePte mem pgdir la = .ok (mem, pgdir) := by
  unfold pageRemovePte
  cases found : pgdir.lookup la with
  | none => rfl
  | some entry =>
      cases entry with
      | none => rfl
      | some pte => simp [found] at absent

-- A page gets a reference, and the page that was mapped before loses one.
def Mem.swapRef (mem : Mem) (page : Nat) : Option Pte → Mem
  | none => mem.setRef page (mem.ref page + 1)
  | some old => (mem.setRef page (mem.ref page + 1)).dropRef old.ppn

section Insert

variable (mem : Mem) (pgdir : Pgdir) (foreign : Nat → Prop) (outside : Nat → Nat) (page : Nat)

-- The reference that page_insert takes first counts as one from outside until
-- the entry is written.
def holding (outside : Nat → Nat) (page : Nat) : Nat → Nat := fun other => outside other + (if other = page then 1 else 0)

theorem hold_space (space : Space mem pgdir foreign outside) (used : mem.free page = false)
    (noTable : ∀ a, pgdir.pageAt a ≠ some page) (noForeign : ¬ foreign page) :
    Space (mem.setRef page (mem.ref page + 1)) pgdir foreign (holding outside page) := by
  refine ⟨space.once, fun a other here => ?_, space.mapped, fun other absent away => ?_, space.foreignUsed, fun other some => ?_⟩
  · have apart : other ≠ page := by
      rintro rfl
      exact noTable a here
    simpa [holding, apart, Mem.setRef] using space.tables a other here
  · have before := space.refs other absent away
    by_cases same : other = page
    · subst same
      simp only [Mem.setRef, Function.update_self, holding, if_true, before]
      push_cast
      omega
    · simp only [Mem.setRef, Function.update_of_ne same, holding, if_neg same, Nat.add_zero, before]
  · by_cases same : other = page
    · rw [same]
      exact used
    · rw [holding, if_neg same, Nat.add_zero] at some
      exact space.outsideUsed other some

theorem settle_space (la : Nat) (pte : Pte) (space : Space mem pgdir foreign (holding outside pte.ppn))
    (found : pgdir.lookup la = some none) (small : la / pgSize < nPages) (noForeign : ¬ foreign pte.ppn) :
    Space mem (pgdir.setPte la (some pte)) foreign outside := by
  have counts := fun other => set_pte_maps pgdir la other (some pte) none found small
  simp only [Option.map_some, Option.some.injEq, Option.map_none, reduceCtorEq, if_false, Nat.add_zero] at counts
  have pages := set_pte_page pgdir la (some pte)
  have same : ∀ other, other ≠ pte.ppn → (pgdir.setPte la (some pte)).count other = pgdir.count other := by
    intro other apart
    rw [← counts other, if_neg (Ne.symm apart), Nat.add_zero]
  have more := counts pte.ppn
  rw [if_pos rfl] at more
  refine ⟨fun a b other hereA hereB => ?_, fun a other here => ?_, fun other positive => ?_, fun other absent away => ?_,
    space.foreignUsed, fun other some => space.outsideUsed other (Nat.lt_of_lt_of_le some (Nat.le_add_right _ _))⟩
  · rw [pages] at hereA hereB
    exact space.once a b other hereA hereB
  · rw [pages] at here
    obtain ⟨free, foreigner, clear, unmapped⟩ := space.tables a other here
    have apart : other ≠ pte.ppn := by
      rintro rfl
      simp [holding] at clear
    rw [holding, if_neg apart] at clear
    exact ⟨free, foreigner, clear, (same other apart).trans unmapped⟩
  · by_cases apart : other = pte.ppn
    · rw [apart]
      exact ⟨space.outsideUsed pte.ppn (by simp [holding]), noForeign⟩
    · rw [same other apart] at positive
      exact space.mapped other positive
  · have before := space.refs other (fun a here => absent a ((pages a).trans here)) away
    by_cases apart : other = pte.ppn
    · subst apart
      rw [before, ← more, holding, if_pos rfl]
      push_cast
      omega
    · rw [before, same other apart, holding, if_neg apart, Nat.add_zero]

theorem set_pte_twice (la : Nat) (first second : Option Pte) : (pgdir.setPte la first).setPte la second = pgdir.setPte la second := by
  cases atDir : pgdir.entries (pdx1 la) with
  | none => simp [Pgdir.setPte, atDir]
  | some dir =>
      cases atTable : dir.entries (pdx0 la) with
      | none => simp [Pgdir.setPte, atDir, atTable]
      | some table => simp [Pgdir.setPte, atDir, atTable, Pgdir.setDir, PageDir.setTable, PageTable.setEntry]

theorem swap_space (la perm : Nat) (old : Option Pte) (space : Space mem pgdir foreign outside) (used : mem.free page = false)
    (noTable : ∀ a, pgdir.pageAt a ≠ some page) (noForeign : ¬ foreign page) (found : pgdir.lookup la = some old)
    (small : la / pgSize < nPages) :
    Space (mem.swapRef page old) (pgdir.setPte la (some (pteCreate page perm))) foreign outside := by
  have held := hold_space mem pgdir foreign outside page space used noTable noForeign
  cases old with
  | none => exact settle_space _ pgdir foreign outside la (pteCreate page perm) held found small noForeign
  | some pte =>
      have removed := page_remove_pte_space _ pgdir foreign _ held la pte found small
      have cleared : (pgdir.setPte la none).lookup la = some none := by
        rw [set_pte_lookup pgdir la none (some pte) found, if_pos ⟨rfl, rfl, rfl⟩]
      have settled := settle_space _ _ foreign outside la (pteCreate page perm) removed cleared small noForeign
      rw [set_pte_twice] at settled
      exact settled

end Insert

end Ucore.Vmm
