import Ucore.Vmm.SpacesInv

set_option autoImplicit false

namespace Ucore.Vmm

open Ucore.Lib

def freeAll : List Nat → Mem → Except Fault Mem
  | [], mem => .ok mem
  | page :: rest, mem => mem.freePage page >>= freeAll rest

theorem free_all_append (first second : List Nat) (mem : Mem) :
    freeAll (first ++ second) mem = freeAll first mem >>= freeAll second := by
  induction first generalizing mem with
  | nil => rfl
  | cons page rest ih =>
      simp only [List.cons_append, freeAll]
      cases mem.freePage page with
      | error fault => rfl
      | ok memF => exact ih memF

theorem free_all_spec (pages : List Nat) (distinct : pages.Nodup) (mem : Mem) (used : ∀ page ∈ pages, mem.free page = false) :
    ∃ mem', freeAll pages mem = .ok mem' ∧ mem'.freed = pages.reverse ++ mem.freed ∧
      (∀ page, page ∉ pages → mem'.free page = mem.free page) ∧ ∀ page, page ∈ pages → mem'.free page = true := by
  induction pages generalizing mem with
  | nil => exact ⟨mem, rfl, rfl, fun _ _ => rfl, fun page inside => by simp at inside⟩
  | cons page rest ih =>
      obtain ⟨notRest, distinctRest⟩ := List.nodup_cons.mp distinct
      have here := used page (by simp)
      have first : mem.freePage page = .ok ⟨mem.manager, Function.update mem.free page true, Function.update mem.ref page 0, mem.phys,
          page :: mem.freed⟩ := by simp [Mem.freePage, here]
      have usedRest : ∀ other ∈ rest, Function.update mem.free page true other = false := by
        intro other inside
        have apart : other ≠ page := by
          rintro rfl
          exact notRest inside
        simp [apart, used other (by simp [inside])]
      obtain ⟨mem', ran, freed, kept, given⟩ := ih distinctRest ⟨mem.manager, Function.update mem.free page true,
        Function.update mem.ref page 0, mem.phys, page :: mem.freed⟩ usedRest
      refine ⟨mem', by rw [freeAll, first]; exact ran, by simp [freed], fun other away => ?_, fun other inside => ?_⟩
      · have apart : other ≠ page := fun same => away (by simp [same])
        rw [kept other fun inside => away (by simp [inside])]
        simp [apart]
      · rcases List.mem_cons.mp inside with rfl | later
        · rw [kept other notRest]
          simp
        · exact given other later

def slotOf (s : Nat) : Fin 512 := Fin.ofNat 512 s

-- The 2 MB slots of a directory that an area touches, and the directories.
abbrev Visit := Fin 512 × List (Fin 512)

def slotEnd (r stop : Nat) : Nat := min ((r + 1) * 512) ((stop + ptSize - 1) / ptSize)
def slotStart (r start : Nat) : Nat := max (start / ptSize) (r * 512)

def slotsFrom (s last : Nat) : List (Fin 512) := (List.range' s (last - s)).map slotOf

def dirEnd (stop : Nat) : Nat := (stop + pdSize - 1) / pdSize

def visitsFrom (r last start stop : Nat) : List Visit :=
  (List.range' r (last - r)).map fun r => (slotOf r, slotsFrom (slotStart r start) (slotEnd r stop))

def Vma.visits (vma : Vma) : List Visit := visitsFrom (vma.vmStart / pdSize) (dirEnd vma.vmEnd) vma.vmStart vma.vmEnd

def PageDir.clear (dir : PageDir) (slots : List (Fin 512)) : PageDir :=
  { dir with entries := fun d0 => if d0 ∈ slots then none else dir.entries d0 }

-- What exit_range gives back of one directory whose tables are empty, and what
-- it leaves there.
def closeDir (entry : Option PageDir) (slots : List (Fin 512)) : List Nat × Option PageDir :=
  match entry with
  | none => ([], none)
  | some dir =>
      if slots.all fun d0 => (dir.entries d0).isSome then (slots.filterMap dir.tablePage ++ [dir.page], none)
      else (slots.filterMap dir.tablePage, some (dir.clear slots))

def closeAll (pgdir : Pgdir) : List Visit → List Nat × Pgdir
  | [] => ([], pgdir)
  | (d1, slots) :: rest =>
      let closed := closeDir (pgdir.entries d1) slots
      let later := closeAll (pgdir.setDir d1 closed.2) rest
      (closed.1 ++ later.1, later.2)

def PageDir.Emptied (dir : PageDir) : Prop := ∀ d0 table, dir.entries d0 = some table → tableEmpty table = true

def Pgdir.Emptied (pgdir : Pgdir) : Prop := ∀ d1 dir, pgdir.entries d1 = some dir → dir.Emptied

theorem slot_index (s : Nat) : pdx0 (s * ptSize) = slotOf s := by
  rw [pdx0, Nat.mul_div_cancel s (by decide), slotOf]

theorem dir_index (r : Nat) : pdx1 (r * pdSize) = slotOf r := by
  rw [pdx1, Nat.mul_div_cancel r (by decide), slotOf]

theorem slots_next (s last : Nat) (order : s < last) : slotsFrom s last = slotOf s :: slotsFrom (s + 1) last := by
  rw [slotsFrom, range_next s _ order, List.map_cons, slotsFrom]

theorem slots_end (s last : Nat) (behind : last ≤ s) : slotsFrom s last = [] := by
  rw [slotsFrom, Nat.sub_eq_zero_of_le behind, List.range'_zero, List.map_nil]

theorem slots_distinct (s last r : Nat) (lower : r * 512 ≤ s) (upper : last ≤ (r + 1) * 512) : (slotsFrom s last).Nodup := by
  refine List.Nodup.map_on (fun a insideA b insideB same => ?_) List.nodup_range'
  have value := congrArg Fin.val same
  simp only [slotOf, Fin.val_ofNat] at value
  have boundA := List.mem_range'_1.mp insideA
  have boundB := List.mem_range'_1.mp insideB
  omega

theorem clear_page (dir : PageDir) (slots : List (Fin 512)) : (dir.clear slots).page = dir.page := rfl

theorem clear_absent (dir : PageDir) (d0 : Fin 512) (slots : List (Fin 512)) (absent : dir.entries d0 = none) :
    dir.clear (d0 :: slots) = dir.clear slots := by
  simp only [PageDir.clear, PageDir.mk.injEq, true_and]
  funext other
  by_cases same : other = d0
  · simp [same, absent]
  · simp [same]

theorem clear_set (dir : PageDir) (d0 : Fin 512) (slots : List (Fin 512)) :
    (dir.setTable d0 none).clear slots = dir.clear (d0 :: slots) := by
  simp only [PageDir.clear, PageDir.setTable, PageDir.mk.injEq, true_and]
  funext other
  by_cases same : other = d0
  · simp [same]
  · simp [same]

theorem exit_tables_spec (mem : Mem) (dir : PageDir) (freePd0 : Bool) (s last r stop fuel : Nat) (lower : r * 512 ≤ s)
    (upper : last ≤ (r + 1) * 512) (bound : ∀ k, k * ptSize < r * pdSize + pdSize ∧ k * ptSize < stop ↔ k < last)
    (order : s < last) (enough : last - s ≤ fuel) (emptied : dir.Emptied) :
    exitTables mem dir freePd0 (s * ptSize) (r * pdSize) stop fuel =
      freeAll ((slotsFrom s last).filterMap dir.tablePage) mem >>= fun mem =>
        .ok (mem, dir.clear (slotsFrom s last), freePd0 && (slotsFrom s last).all fun d0 => (dir.entries d0).isSome) := by
  induction fuel generalizing mem dir freePd0 s with
  | zero => omega
  | succ fuel ih =>
      have distinct := slots_distinct s last r lower upper
      rw [slots_next s last order] at distinct
      obtain ⟨notLater, _⟩ := List.nodup_cons.mp distinct
      have advance : ∀ (memR : Mem) (dirR : PageDir) (flag : Bool), dirR.Emptied →
          (if s * ptSize + ptSize ≠ 0 ∧ s * ptSize + ptSize < r * pdSize + pdSize ∧ s * ptSize + ptSize < stop then
            exitTables memR dirR flag (s * ptSize + ptSize) (r * pdSize) stop fuel else .ok (memR, dirR, flag)) =
          freeAll ((slotsFrom (s + 1) last).filterMap dirR.tablePage) memR >>= fun mem =>
            .ok (mem, dirR.clear (slotsFrom (s + 1) last), flag && (slotsFrom (s + 1) last).all fun d0 => (dirR.entries d0).isSome) := by
        intro memR dirR flag emptiedR
        rw [← Nat.succ_mul]
        by_cases more : s + 1 < last
        · have continues : s.succ * ptSize ≠ 0 ∧ s.succ * ptSize < r * pdSize + pdSize ∧ s.succ * ptSize < stop :=
            ⟨Nat.ne_of_gt (Nat.mul_pos (Nat.succ_pos s) (by decide)), (bound s.succ).mpr more⟩
          rw [if_pos continues]
          exact ih memR dirR flag (s + 1) (by omega) more (by omega) emptiedR
        · have stops : ¬ (s.succ * ptSize ≠ 0 ∧ s.succ * ptSize < r * pdSize + pdSize ∧ s.succ * ptSize < stop) := fun all =>
            more ((bound s.succ).mp all.2)
          rw [if_neg stops, slots_end (s + 1) last (by omega)]
          simp [freeAll, PageDir.clear]
      rw [exitTables, slot_index, slots_next s last order]
      cases atSlot : dir.entries (slotOf s) with
      | none =>
          have skipped : dir.tablePage (slotOf s) = none := by rw [PageDir.tablePage, atSlot, Option.map_none]
          rw [List.filterMap_cons_none skipped, clear_absent dir _ _ atSlot, List.all_cons, atSlot]
          have rest := advance mem dir false emptied
          simpa using rest
      | some table =>
          have given : dir.tablePage (slotOf s) = some table.page := by rw [PageDir.tablePage, atSlot, Option.map_some]
          rw [List.filterMap_cons_some given, List.all_cons, atSlot, freeAll]
          simp only [emptied _ table atSlot, if_true]
          cases mem.freePage table.page with
          | error fault => simp only [error_bind]
          | ok memF =>
              have emptiedR : (dir.setTable (slotOf s) none).Emptied := by
                intro d0 other found
                by_cases same : d0 = slotOf s
                · simp [PageDir.setTable, same] at found
                · exact emptied d0 other (by simpa [PageDir.setTable, same] using found)
              have rest := advance memF (dir.setTable (slotOf s) none) freePd0 emptiedR
              have pages : (slotsFrom (s + 1) last).filterMap (dir.setTable (slotOf s) none).tablePage =
                  (slotsFrom (s + 1) last).filterMap dir.tablePage := by
                refine List.filterMap_congr fun d0 inside => ?_
                have apart : d0 ≠ slotOf s := fun same => notLater (same ▸ inside)
                simp [PageDir.tablePage, PageDir.setTable, apart]
              have present : ((slotsFrom (s + 1) last).all fun d0 => ((dir.setTable (slotOf s) none).entries d0).isSome) =
                  (slotsFrom (s + 1) last).all fun d0 => (dir.entries d0).isSome := by
                rw [Bool.eq_iff_iff, List.all_eq_true, List.all_eq_true]
                refine forall₂_congr fun d0 inside => ?_
                have apart : d0 ≠ slotOf s := fun same => notLater (same ▸ inside)
                simp [PageDir.setTable, apart]
              rw [pages, present, clear_set] at rest
              simpa using rest

theorem visits_next (r last start stop : Nat) (order : r < last) : visitsFrom r last start stop =
    (slotOf r, slotsFrom (slotStart r start) (slotEnd r stop)) :: visitsFrom (r + 1) last start stop := by
  rw [visitsFrom, range_next r _ order, List.map_cons, visitsFrom]

theorem visits_end (r last start stop : Nat) (behind : last ≤ r) : visitsFrom r last start stop = [] := by
  rw [visitsFrom, Nat.sub_eq_zero_of_le behind, List.range'_zero, List.map_nil]

theorem slot_bounds (r start stop : Nat) (order : start < stop) (low : start / pdSize ≤ r) (high : r * pdSize < stop) :
    r * 512 ≤ slotStart r start ∧ slotEnd r stop ≤ (r + 1) * 512 ∧
      (∀ k, k * ptSize < r * pdSize + pdSize ∧ k * ptSize < stop ↔ k < slotEnd r stop) ∧ slotStart r start < slotEnd r stop ∧
      slotEnd r stop - slotStart r start ≤ rangeFuel (slotStart r start * ptSize) stop ∧
      slotStart (r + 1) start * ptSize = r * pdSize + pdSize := by
  simp only [slotStart, slotEnd, rangeFuel, ptSize, pdSize, pgSize] at low high ⊢
  refine ⟨Nat.le_max_right _ _, Nat.min_le_left _ _, fun k => ?_, ?_, ?_, ?_⟩
  · omega
  · omega
  · omega
  · omega

theorem close_emptied (pgdir : Pgdir) (d1 : Fin 512) (slots : List (Fin 512)) (emptied : pgdir.Emptied) :
    (pgdir.setDir d1 (closeDir (pgdir.entries d1) slots).2).Emptied := by
  intro other dir found
  by_cases same : other = d1
  · subst same
    cases before : pgdir.entries other with
    | none => simp [Pgdir.setDir, before, closeDir] at found
    | some old =>
        rw [before, closeDir] at found
        split at found
        · simp [Pgdir.setDir] at found
        · obtain rfl : old.clear slots = dir := by simpa [Pgdir.setDir] using found
          intro d0 table at'
          by_cases gone : d0 ∈ slots
          · simp [PageDir.clear, gone] at at'
          · exact emptied other old before d0 table (by simpa [PageDir.clear, gone] using at')
  · exact emptied other dir (by simpa [Pgdir.setDir, same] using found)

theorem exit_dir_spec (mem : Mem) (pgdir : Pgdir) (r s last stop : Nat) (lower : r * 512 ≤ s) (upper : last ≤ (r + 1) * 512)
    (bound : ∀ k, k * ptSize < r * pdSize + pdSize ∧ k * ptSize < stop ↔ k < last) (order : s < last)
    (enough : last - s ≤ rangeFuel (s * ptSize) stop) (emptied : pgdir.Emptied) :
    exitDir mem pgdir (r * pdSize) (s * ptSize) stop =
      freeAll (closeDir (pgdir.entries (slotOf r)) (slotsFrom s last)).1 mem >>= fun mem =>
        .ok (mem, pgdir.setDir (slotOf r) (closeDir (pgdir.entries (slotOf r)) (slotsFrom s last)).2) := by
  rw [exitDir, dir_index]
  cases atDir : pgdir.entries (slotOf r) with
  | none =>
      have same : pgdir.setDir (slotOf r) none = pgdir := by rw [← atDir, Pgdir.setDir, Function.update_eq_self]
      simp only [closeDir, freeAll, ok_bind, same]
  | some dir =>
      have tables := exit_tables_spec mem dir true s last r stop (rangeFuel (s * ptSize) stop) lower upper bound order enough
        (emptied _ dir atDir)
      simp only [tables, closeDir]
      generalize slotsFrom s last = slots
      by_cases complete : slots.all fun d0 => (dir.entries d0).isSome
      · simp only [complete, if_true, free_all_append]
        cases freeAll (slots.filterMap dir.tablePage) mem with
        | error fault => simp only [error_bind]
        | ok memT =>
            simp only [ok_bind, Bool.true_and, if_true, freeAll, clear_page, pure_ok]
            cases memT.freePage dir.page with
            | error fault => simp only [error_bind]
            | ok memD => simp only [ok_bind]
      · simp only [complete, Bool.false_eq_true, if_false]
        cases freeAll (slots.filterMap dir.tablePage) mem with
        | error fault => simp only [error_bind]
        | ok memT => simp only [ok_bind, Bool.true_and, Bool.false_eq_true, if_false, pure_ok]

theorem exit_dirs_step (mem : Mem) (pgdir : Pgdir) (d1start d0start stop fuel : Nat) : exitDirs mem pgdir d1start d0start stop (fuel + 1) =
    exitDir mem pgdir d1start d0start stop >>= fun result =>
      if d1start + pdSize ≠ 0 ∧ d1start + pdSize < stop then
        exitDirs result.1 result.2 (d1start + pdSize) (d1start + pdSize) stop fuel else .ok result := by
  rw [exitDirs]
  rfl

theorem exit_dirs_spec (mem : Mem) (pgdir : Pgdir) (r last start stop fuel : Nat) (order : start < stop) (low : start / pdSize ≤ r)
    (bound : ∀ k, k * pdSize < stop ↔ k < last) (high : r < last) (enough : last - r ≤ fuel) (emptied : pgdir.Emptied) :
    exitDirs mem pgdir (r * pdSize) (slotStart r start * ptSize) stop fuel =
      freeAll (closeAll pgdir (visitsFrom r last start stop)).1 mem >>= fun mem =>
        .ok (mem, (closeAll pgdir (visitsFrom r last start stop)).2) := by
  induction fuel generalizing mem pgdir r with
  | zero => omega
  | succ fuel ih =>
      obtain ⟨lower, upper, inner, some', fuels, following⟩ := slot_bounds r start stop order low ((bound r).mpr high)
      rw [exit_dirs_step, exit_dir_spec mem pgdir r _ _ stop lower upper inner some' fuels emptied, visits_next r last start stop high,
        closeAll]
      have after := close_emptied pgdir (slotOf r) (slotsFrom (slotStart r start) (slotEnd r stop)) emptied
      generalize closeDir (pgdir.entries (slotOf r)) (slotsFrom (slotStart r start) (slotEnd r stop)) = closed at after ⊢
      rw [free_all_append]
      cases freeAll closed.1 mem with
      | error fault => rw [error_bind, error_bind, error_bind, error_bind]
      | ok memR =>
          rw [ok_bind, ok_bind, ok_bind]
          have whole : r * pdSize + pdSize = (r + 1) * pdSize := (Nat.succ_mul r pdSize).symm
          by_cases more : r + 1 < last
          · have continues : r * pdSize + pdSize ≠ 0 ∧ r * pdSize + pdSize < stop := by
              rw [whole]
              exact ⟨Nat.ne_of_gt (Nat.mul_pos (Nat.succ_pos r) (by decide)), (bound (r + 1)).mpr more⟩
            rw [if_pos continues]
            have later := ih memR (pgdir.setDir (slotOf r) closed.2) (r + 1) (by omega) more (by omega) after
            rwa [following, ← whole] at later
          · have stops : ¬ (r * pdSize + pdSize ≠ 0 ∧ r * pdSize + pdSize < stop) := by
              rw [whole]
              exact fun all => more ((bound (r + 1)).mp all.2)
            rw [if_neg stops, visits_end (r + 1) last start stop (by omega)]
            simp [closeAll, freeAll]

theorem dir_bound (stop k : Nat) : k * pdSize < stop ↔ k < dirEnd stop := by
  simp only [dirEnd, pdSize]
  omega

theorem exit_range_spec (mem : Mem) (pgdir : Pgdir) (vma : Vma) (fits : vma.Fits) (emptied : pgdir.Emptied) :
    exitRange mem pgdir vma.vmStart vma.vmEnd =
      freeAll (closeAll pgdir vma.visits).1 mem >>= fun mem => .ok (mem, (closeAll pgdir vma.visits).2) := by
  obtain ⟨alignedStart, alignedStop, user⟩ := fits
  have order := user.2.1
  have first : vma.vmStart / pdSize < dirEnd vma.vmEnd := by
    rw [← dir_bound]
    exact Nat.lt_of_le_of_lt (Nat.div_mul_le_self _ _) order
  have slots : slotStart (vma.vmStart / pdSize) vma.vmStart = vma.vmStart / ptSize := by
    simp only [slotStart, ptSize, pdSize]
    omega
  have enough : dirEnd vma.vmEnd - vma.vmStart / pdSize ≤ rangeFuel vma.vmStart vma.vmEnd := by
    simp only [dirEnd, rangeFuel, pdSize, pgSize] at alignedStart alignedStop ⊢
    omega
  have loop := exit_dirs_spec mem pgdir (vma.vmStart / pdSize) (dirEnd vma.vmEnd) vma.vmStart vma.vmEnd
    (rangeFuel vma.vmStart vma.vmEnd) order (Nat.le_refl _) (dir_bound vma.vmEnd) first enough emptied
  rw [slots] at loop
  simp only [exitRange, alignedStart, alignedStop, user, and_self, decide_true, check_true, ok_bind, roundDown]
  exact loop

theorem close_all_append (pgdir : Pgdir) (first second : List Visit) : closeAll pgdir (first ++ second) =
    ((closeAll pgdir first).1 ++ (closeAll (closeAll pgdir first).2 second).1, (closeAll (closeAll pgdir first).2 second).2) := by
  induction first generalizing pgdir with
  | nil => rfl
  | cons visit rest ih => simp only [List.cons_append, closeAll, ih, List.append_assoc]

theorem close_all_emptied (pgdir : Pgdir) (visits : List Visit) (emptied : pgdir.Emptied) : (closeAll pgdir visits).2.Emptied := by
  induction visits generalizing pgdir with
  | nil => exact emptied
  | cons visit rest ih => exact ih _ (close_emptied pgdir visit.1 visit.2 emptied)

theorem exit_all_spec (mem : Mem) (pgdir : Pgdir) (vmas : List Vma) (fits : ∀ vma ∈ vmas, vma.Fits) (emptied : pgdir.Emptied) :
    exitAll mem pgdir vmas = freeAll (closeAll pgdir (vmas.flatMap Vma.visits)).1 mem >>= fun mem =>
      .ok (mem, (closeAll pgdir (vmas.flatMap Vma.visits)).2) := by
  induction vmas generalizing mem pgdir with
  | nil => rfl
  | cons vma rest ih =>
      rw [exitAll, exit_range_spec mem pgdir vma (fits vma (by simp)) emptied, List.flatMap_cons, close_all_append, free_all_append]
      cases freeAll (closeAll pgdir vma.visits).1 mem with
      | error fault => simp only [error_bind]
      | ok memR =>
          simp only [ok_bind]
          exact ih memR _ (fun other inside => fits other (by simp [inside])) (close_all_emptied pgdir vma.visits emptied)

end Ucore.Vmm
