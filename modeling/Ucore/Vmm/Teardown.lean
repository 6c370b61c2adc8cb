import Ucore.Vmm.ExitRange

set_option autoImplicit false

namespace Ucore.Vmm

open Ucore.Lib

def Pgdir.Once (pgdir : Pgdir) : Prop := ∀ a b page, pgdir.pageAt a = some page → pgdir.pageAt b = some page → a = b

def slotsAt (d1 : Fin 512) (visits : List Visit) : List (List (Fin 512)) :=
  visits.filterMap fun visit => if visit.1 = d1 then some visit.2 else none

-- Of the areas that touch a directory, the first one whose slots all have their
-- tables still must leave no table: exit_range frees the directory there.
def closes : List (List (Fin 512)) → (Fin 512 → Bool) → Bool
  | [], _ => false
  | slots :: rest, present =>
      if slots.all present then (List.finRange 512).all fun d0 => !present d0 || slots.contains d0
      else closes rest fun d0 => present d0 && !slots.contains d0

def PageDir.present (dir : PageDir) (d0 : Fin 512) : Bool := (dir.entries d0).isSome

section Close

variable (pgdir : Pgdir) (d1 : Fin 512) (slots : List (Fin 512))

def closedPgdir (pgdir : Pgdir) (d1 : Fin 512) (slots : List (Fin 512)) : Pgdir :=
  pgdir.setDir d1 (closeDir (pgdir.entries d1) slots).2

theorem close_pages (page : Nat) : page ∈ (closeDir (pgdir.entries d1) slots).1 ↔
    ∃ dir, pgdir.entries d1 = some dir ∧ ((∃ d0 ∈ slots, dir.tablePage d0 = some page) ∨ slots.all dir.present ∧ page = dir.page) := by
  cases atDir : pgdir.entries d1 with
  | none => simp [closeDir]
  | some dir =>
      simp only [closeDir, Option.some.injEq, exists_eq_left']
      by_cases complete : slots.all fun d0 => (dir.entries d0).isSome
      · have all : slots.all dir.present = true := complete
        simp [complete, all]
      · have notAll : ¬ slots.all dir.present = true := complete
        simp [complete, notAll]

theorem closed_other (other : Fin 512) (apart : other ≠ d1) : (closedPgdir pgdir d1 slots).entries other = pgdir.entries other := by
  simp [closedPgdir, Pgdir.setDir, apart]

theorem closed_here (dir : PageDir) (atDir : pgdir.entries d1 = some dir) :
    (closedPgdir pgdir d1 slots).entries d1 = if slots.all dir.present then none else some (dir.clear slots) := by
  simp only [closedPgdir, Pgdir.setDir, Function.update_self, atDir, closeDir]
  by_cases complete : slots.all fun d0 => (dir.entries d0).isSome
  · have all : slots.all dir.present = true := complete
    simp [complete, all]
  · have notAll : ¬ slots.all dir.present = true := complete
    simp [complete, notAll]

theorem clear_table (dir : PageDir) (d0 : Fin 512) : (dir.clear slots).tablePage d0 = if d0 ∈ slots then none else dir.tablePage d0 := by
  by_cases gone : d0 ∈ slots <;> simp [PageDir.tablePage, PageDir.clear, gone]

-- The tables that are left were there, and are not among the pages given back.
theorem closed_page (once : pgdir.Once) (a : TableAt) (page : Nat) (found : (closedPgdir pgdir d1 slots).pageAt a = some page) :
    pgdir.pageAt a = some page ∧ page ∉ (closeDir (pgdir.entries d1) slots).1 := by
  have before : pgdir.pageAt a = some page ∧ ∀ dir, pgdir.entries d1 = some dir → (∀ d0 ∈ slots, a ≠ .table d1 d0) ∧
      (slots.all dir.present → a ≠ .dir d1) := by
    cases a with
    | root => exact ⟨found, by simp⟩
    | dir e1 =>
        by_cases same : e1 = d1
        · subst same
          cases atDir : pgdir.entries e1 with
          | none => simp [Pgdir.pageAt, closedPgdir, Pgdir.setDir, atDir, closeDir] at found
          | some dir =>
              simp only [Pgdir.pageAt, closed_here pgdir e1 slots dir atDir] at found ⊢
              by_cases complete : slots.all dir.present
              · simp [complete] at found
              · rw [if_neg complete] at found
                refine ⟨by rw [atDir]; exact found, fun other equal => ⟨by simp, fun all => ?_⟩⟩
                obtain rfl := Option.some.inj equal
                exact absurd all complete
        · simp only [Pgdir.pageAt, closed_other pgdir d1 slots e1 same] at found ⊢
          exact ⟨found, fun _ _ => ⟨by simp, fun _ => by simp [same]⟩⟩
    | table e1 e0 =>
        by_cases same : e1 = d1
        · subst same
          cases atDir : pgdir.entries e1 with
          | none => simp [Pgdir.pageAt, closedPgdir, Pgdir.setDir, atDir, closeDir] at found
          | some dir =>
              simp only [Pgdir.pageAt, closed_here pgdir e1 slots dir atDir] at found ⊢
              by_cases complete : slots.all dir.present
              · simp [complete] at found
              · rw [if_neg complete, Option.bind_some, clear_table] at found
                by_cases gone : e0 ∈ slots
                · simp [gone] at found
                · rw [if_neg gone] at found
                  refine ⟨by rw [atDir]; exact found, fun _ _ => ⟨fun d0 inside => ?_, fun _ => by simp⟩⟩
                  rintro equal
                  obtain ⟨_, rfl⟩ := TableAt.table.inj equal
                  exact gone inside
        · simp only [Pgdir.pageAt, closed_other pgdir d1 slots e1 same] at found ⊢
          exact ⟨found, fun _ _ => ⟨fun _ _ equal => same (TableAt.table.inj equal).1, fun _ => by simp⟩⟩
  obtain ⟨here, apart⟩ := before
  refine ⟨here, fun given => ?_⟩
  obtain ⟨dir, atDir, taken⟩ := (close_pages pgdir d1 slots page).mp given
  obtain ⟨notTable, notDir⟩ := apart dir atDir
  rcases taken with ⟨d0, inside, at'⟩ | ⟨all, rfl⟩
  · exact notTable d0 inside (once a (.table d1 d0) page here (by simp [Pgdir.pageAt, atDir, at']))
  · exact notDir all (once a (.dir d1) dir.page here (by simp [Pgdir.pageAt, atDir]))

theorem closed_once (once : pgdir.Once) : (closedPgdir pgdir d1 slots).Once := fun a b page atA atB =>
  once a b page (closed_page pgdir d1 slots once a page atA).1 (closed_page pgdir d1 slots once b page atB).1

theorem close_place (page : Nat) (given : page ∈ (closeDir (pgdir.entries d1) slots).1) :
    ∃ a, a ≠ .root ∧ pgdir.pageAt a = some page := by
  obtain ⟨dir, atDir, taken⟩ := (close_pages pgdir d1 slots page).mp given
  rcases taken with ⟨d0, _, at'⟩ | ⟨_, rfl⟩
  · exact ⟨.table d1 d0, by simp, by simp [Pgdir.pageAt, atDir, at']⟩
  · exact ⟨.dir d1, by simp, by simp [Pgdir.pageAt, atDir]⟩

theorem close_distinct (once : pgdir.Once) (distinct : slots.Nodup) : (closeDir (pgdir.entries d1) slots).1.Nodup := by
  cases atDir : pgdir.entries d1 with
  | none => simp [closeDir]
  | some dir =>
      have tables : (slots.filterMap dir.tablePage).Nodup := by
        refine List.Nodup.filterMap (fun left right page atLeft atRight => ?_) distinct
        have same := once (.table d1 left) (.table d1 right) page (by simpa [Pgdir.pageAt, atDir] using atLeft)
          (by simpa [Pgdir.pageAt, atDir] using atRight)
        exact (TableAt.table.inj same).2
      simp only [closeDir]
      split
      · refine List.nodup_append.mpr ⟨tables, by simp, fun page inside other last clash => ?_⟩
        obtain ⟨d0, _, at'⟩ := List.mem_filterMap.mp inside
        obtain rfl : other = dir.page := by simpa using last
        have same := once (.table d1 d0) (.dir d1) page (by simp [Pgdir.pageAt, atDir, at']) (by simp [Pgdir.pageAt, atDir, clash])
        cases same
      · exact tables

end Close

theorem close_all_cons (pgdir : Pgdir) (d1 : Fin 512) (slots : List (Fin 512)) (rest : List Visit) :
    (closeAll pgdir ((d1, slots) :: rest)).1 =
      (closeDir (pgdir.entries d1) slots).1 ++ (closeAll (closedPgdir pgdir d1 slots) rest).1 := rfl

theorem close_all_place (visits : List Visit) (pgdir : Pgdir) (once : pgdir.Once) (page : Nat) (given : page ∈ (closeAll pgdir visits).1) :
    ∃ a, a ≠ .root ∧ pgdir.pageAt a = some page := by
  induction visits generalizing pgdir with
  | nil => simp [closeAll] at given
  | cons visit rest ih =>
      obtain ⟨d1, slots⟩ := visit
      rw [close_all_cons] at given
      rcases List.mem_append.mp given with now | later
      · exact close_place pgdir d1 slots page now
      · obtain ⟨a, apart, at'⟩ := ih _ (closed_once pgdir d1 slots once) later
        exact ⟨a, apart, (closed_page pgdir d1 slots once a page at').1⟩

theorem close_all_distinct (visits : List Visit) (pgdir : Pgdir) (once : pgdir.Once) (distinct : ∀ visit ∈ visits, visit.2.Nodup) :
    (closeAll pgdir visits).1.Nodup := by
  induction visits generalizing pgdir with
  | nil => simp [closeAll]
  | cons visit rest ih =>
      obtain ⟨d1, slots⟩ := visit
      have once' := closed_once pgdir d1 slots once
      rw [close_all_cons]
      refine List.nodup_append.mpr ⟨close_distinct pgdir d1 slots once (distinct (d1, slots) (by simp)),
        ih _ once' fun other inside => distinct other (by simp [inside]), fun page now other later clash => ?_⟩
      obtain ⟨a, _, at'⟩ := close_all_place rest _ once' other later
      exact (closed_page pgdir d1 slots once a other at').2 (clash ▸ now)

-- A directory and its tables are all given back when the areas close it.
theorem close_all_closes (visits : List Visit) (pgdir : Pgdir) (once : pgdir.Once) (d1 : Fin 512) (dir : PageDir)
    (atDir : pgdir.entries d1 = some dir) :
    (dir.page ∈ (closeAll pgdir visits).1 ∧ ∀ d0 page, dir.tablePage d0 = some page → page ∈ (closeAll pgdir visits).1) ↔
      closes (slotsAt d1 visits) dir.present = true := by
  have dirAt : pgdir.pageAt (.dir d1) = some dir.page := by simp [Pgdir.pageAt, atDir]
  have tableAt : ∀ d0 page, dir.tablePage d0 = some page → pgdir.pageAt (.table d1 d0) = some page := by
    intro d0 page at'
    simp [Pgdir.pageAt, atDir, at']
  induction visits generalizing pgdir dir with
  | nil => simp [closeAll, slotsAt, closes]
  | cons visit rest ih =>
      obtain ⟨e1, slots⟩ := visit
      have once' := closed_once pgdir e1 slots once
      simp only [close_all_cons, List.mem_append]
      by_cases same : e1 = d1
      · subst same
        have listed : slotsAt e1 ((e1, slots) :: rest) = slots :: slotsAt e1 rest := by simp [slotsAt]
        have dirGiven : dir.page ∈ (closeDir (pgdir.entries e1) slots).1 ↔ slots.all dir.present = true := by
          rw [close_pages]
          constructor
          · rintro ⟨other, equal, ⟨d0, _, at'⟩ | ⟨all, _⟩⟩
            · rw [atDir] at equal
              obtain rfl := Option.some.inj equal
              cases once _ _ _ (tableAt d0 _ at') dirAt
            · rw [atDir] at equal
              obtain rfl := Option.some.inj equal
              exact all
          · exact fun all => ⟨dir, atDir, .inr ⟨all, rfl⟩⟩
        have tableGiven : ∀ d0 page, dir.tablePage d0 = some page → (page ∈ (closeDir (pgdir.entries e1) slots).1 ↔ d0 ∈ slots) := by
          intro d0 page at'
          rw [close_pages]
          constructor
          · rintro ⟨other, equal, taken⟩
            rw [atDir] at equal
            obtain rfl := Option.some.inj equal
            rcases taken with ⟨f0, inside, atF⟩ | ⟨_, rfl⟩
            · exact (TableAt.table.inj (once _ _ _ (tableAt d0 page at') (tableAt f0 page atF))).2 ▸ inside
            · cases once _ _ _ (tableAt d0 _ at') dirAt
          · exact fun inside => ⟨dir, atDir, .inl ⟨d0, inside, at'⟩⟩
        rw [listed, closes, dirGiven]
        by_cases all : slots.all dir.present
        · -- The directory goes, and with it what is left in it.
          have gone : (closedPgdir pgdir e1 slots).entries e1 = none := by rw [closed_here pgdir e1 slots dir atDir, if_pos all]
          have lost : ∀ d0 page, dir.tablePage d0 = some page → page ∉ (closeAll (closedPgdir pgdir e1 slots) rest).1 := by
            intro d0 page at' later
            obtain ⟨a, _, atA⟩ := close_all_place rest _ once' page later
            have place := once _ _ _ (closed_page pgdir e1 slots once a page atA).1 (tableAt d0 page at')
            rw [place] at atA
            simp [Pgdir.pageAt, gone] at atA
          simp only [all, true_or, true_and, if_true, List.all_eq_true, List.mem_finRange, true_implies, Bool.or_eq_true,
            Bool.not_eq_true', List.contains_iff_mem]
          constructor
          · intro given d0
            cases at' : dir.entries d0 with
            | none => exact .inl (by simp [PageDir.present, at'])
            | some table =>
                have found : dir.tablePage d0 = some table.page := by simp [PageDir.tablePage, at']
                exact .inr ((tableGiven d0 _ found).mp ((given d0 _ found).resolve_right (lost d0 _ found)))
          · intro covered d0 page at'
            refine .inl ((tableGiven d0 page at').mpr ?_)
            rcases covered d0 with absent | inside
            · cases entry : dir.entries d0 with
              | none => simp [PageDir.tablePage, entry] at at'
              | some table => simp [PageDir.present, entry] at absent
            · exact inside
        · have here : (closedPgdir pgdir e1 slots).entries e1 = some (dir.clear slots) := by
            rw [closed_here pgdir e1 slots dir atDir, if_neg all]
          have left : (dir.clear slots).present = fun d0 => dir.present d0 && !slots.contains d0 := by
            funext d0
            by_cases gone : d0 ∈ slots <;> simp [PageDir.present, PageDir.clear, gone]
          have later := ih _ once' (dir.clear slots) here (by simp [Pgdir.pageAt, here]) fun d0 page at' => by
            simp [Pgdir.pageAt, here, at']
          rw [left] at later
          simp only [all, false_or, Bool.false_eq_true, if_false]
          refine Iff.trans (and_congr Iff.rfl ⟨fun given d0 page at' => ?_, fun given d0 page at' => ?_⟩) later
          · rw [clear_table] at at'
            by_cases gone : d0 ∈ slots
            · simp [gone] at at'
            · rw [if_neg gone] at at'
              exact (given d0 page at').resolve_left fun now => gone ((tableGiven d0 page at').mp now)
          · by_cases gone : d0 ∈ slots
            · exact .inl ((tableGiven d0 page at').mpr gone)
            · exact .inr (given d0 page (by rw [clear_table, if_neg gone, at']))
      · have listed : slotsAt d1 ((e1, slots) :: rest) = slotsAt d1 rest := by simp [slotsAt, same]
        have here : (closedPgdir pgdir e1 slots).entries d1 = some dir := by rw [closed_other pgdir e1 slots d1 (Ne.symm same), atDir]
        have elsewhere : ∀ a page, pgdir.pageAt a = some page → (∀ d0, a ≠ .table e1 d0) → a ≠ .dir e1 →
            page ∉ (closeDir (pgdir.entries e1) slots).1 := by
          intro a page at' notTable notDir given
          obtain ⟨other, atOther, taken⟩ := (close_pages pgdir e1 slots page).mp given
          rcases taken with ⟨d0, _, atT⟩ | ⟨_, rfl⟩
          · exact notTable d0 (once a (.table e1 d0) page at' (by simp [Pgdir.pageAt, atOther, atT]))
          · exact notDir (once a (.dir e1) other.page at' (by simp [Pgdir.pageAt, atOther]))
        have dirKept := elsewhere _ _ dirAt (by simp) (by simp [Ne.symm same])
        have later := ih _ once' dir here (by simp [Pgdir.pageAt, here]) fun d0 page at' => by simp [Pgdir.pageAt, here, at']
        rw [listed]
        simp only [dirKept, false_or]
        refine Iff.trans (and_congr Iff.rfl (forall₃_congr fun d0 page at' => ?_)) later
        have tableKept := elsewhere _ _ (tableAt d0 page at') (by simp [Ne.symm same]) (by simp)
        simp [tableKept]

end Ucore.Vmm
