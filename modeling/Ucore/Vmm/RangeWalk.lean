import Ucore.Vmm.PageInsert

set_option autoImplicit false

namespace Ucore.Vmm

open Ucore.Lib

-- The range loops page by page, without the steps over tables that are absent.
def unmapPages (mem : Mem) (pgdir : Pgdir) : List Nat → Except Fault (Mem × Pgdir)
  | [] => .ok (mem, pgdir)
  | vpn :: rest => do
      let (mem, pgdir) ← pageRemovePte mem pgdir (vpn * pgSize)
      unmapPages mem pgdir rest

def copyPage (mem : Mem) (target source : Pgdir) (la : Nat) : Except Fault (Int × Mem × Pgdir) :=
  match source.lookup la with
  | some (some pte) =>
      match getPte mem target la with
      | (false, mem, target) => .ok (eNoMem, mem, target)
      | (true, mem, target) =>
          match mem.allocPage with
          | none => .error .assertFailed
          | some (npage, mem) =>
              pageInsert { mem with phys := memcpy mem.phys (npage * pgSize) (mem.phys.from (pte.ppn * pgSize)) pgSize } target npage la
                (pte.flags &&& pteUser)
  | _ => .ok (0, mem, target)

def copyPages (mem : Mem) (target source : Pgdir) : List Nat → Except Fault (Int × Mem × Pgdir)
  | [] => .ok (0, mem, target)
  | vpn :: rest => do
      let (ret, mem, target) ← copyPage mem target source (vpn * pgSize)
      if ret ≠ 0 then return (ret, mem, target) else copyPages mem target source rest

theorem page_index (vpn : Nat) : vpn * pgSize / pgSize = vpn := Nat.mul_div_cancel vpn (by decide)

-- The first page behind the table that maps a page.
def nextTable (vpn : Nat) : Nat := (vpn / 512 + 1) * 512

theorem next_table_start (vpn : Nat) : roundDown (vpn * pgSize + ptSize) ptSize = nextTable vpn * pgSize := by
  simp only [roundDown, nextTable, pgSize, ptSize]
  omega

theorem next_table_above (vpn : Nat) : vpn < nextTable vpn := by
  simp only [nextTable]
  omega

theorem lookup_none_table (pgdir : Pgdir) (vpn other : Nat) (absent : pgdir.lookup (vpn * pgSize) = none) (lower : vpn ≤ other)
    (upper : other < nextTable vpn) : pgdir.lookup (other * pgSize) = none := by
  simp only [nextTable] at upper
  have one : pdx1 (other * pgSize) = pdx1 (vpn * pgSize) := by
    have same : other * pgSize / pdSize = vpn * pgSize / pdSize := by
      simp only [pgSize, pdSize]
      omega
    rw [pdx1, same, pdx1]
  have zero : pdx0 (other * pgSize) = pdx0 (vpn * pgSize) := by
    have same : other * pgSize / ptSize = vpn * pgSize / ptSize := by
      simp only [pgSize, ptSize]
      omega
    rw [pdx0, same, pdx0]
  unfold Pgdir.lookup at absent ⊢
  rw [one, zero]
  cases atDir : pgdir.entries (pdx1 (vpn * pgSize)) with
  | none => rfl
  | some dir =>
      cases atTable : dir.entries (pdx0 (vpn * pgSize)) with
      | none => simp [atTable]
      | some table => simp [atDir, atTable] at absent

theorem unmap_pages_append (mem : Mem) (pgdir : Pgdir) (first second : List Nat) : unmapPages mem pgdir (first ++ second) =
    (unmapPages mem pgdir first) >>= fun (mem, pgdir) => unmapPages mem pgdir second := by
  induction first generalizing mem pgdir with
  | nil => rfl
  | cons vpn rest ih =>
      simp only [List.cons_append, unmapPages]
      cases pageRemovePte mem pgdir (vpn * pgSize) with
      | error fault => rfl
      | ok result => exact ih result.1 result.2

theorem unmap_pages_absent (mem : Mem) (pgdir : Pgdir) (vpns : List Nat)
    (absent : ∀ vpn ∈ vpns, (pgdir.lookup (vpn * pgSize)).join = none) : unmapPages mem pgdir vpns = .ok (mem, pgdir) := by
  induction vpns with
  | nil => rfl
  | cons vpn rest ih =>
      rw [unmapPages, no_remove mem pgdir (vpn * pgSize) (absent vpn (by simp))]
      exact ih fun other inside => absent other (by simp [inside])

theorem copy_pages_append (mem : Mem) (target source : Pgdir) (first second : List Nat)
    (absent : ∀ vpn ∈ first, (source.lookup (vpn * pgSize)).join = none) :
    copyPages mem target source (first ++ second) = copyPages mem target source second := by
  induction first with
  | nil => rfl
  | cons vpn rest ih =>
      have here : copyPage mem target source (vpn * pgSize) = .ok (0, mem, target) := by
        have none' := absent vpn (by simp)
        unfold copyPage
        cases found : source.lookup (vpn * pgSize) with
        | none => rfl
        | some entry =>
            cases entry with
            | none => rfl
            | some pte => simp [found] at none'
      rw [List.cons_append, copyPages, here]
      simpa using ih fun other inside => absent other (by simp [inside])

-- The pages up to the next table or to the end of the range.
theorem range_skip (v w : Nat) (order : v < w) :
    List.range' v (w - v) = List.range' v (min (nextTable v) w - v) ++ List.range' (nextTable v) (w - nextTable v) := by
  have above := next_table_above v
  rcases Nat.lt_or_ge (nextTable v) w with inside | behind
  · rw [Nat.min_eq_left inside.le]
    have split := @List.range'_append_1 v (nextTable v - v) (w - nextTable v)
    rw [Nat.add_sub_of_le above.le] at split
    rw [split]
    congr 1
    omega
  · rw [Nat.min_eq_right behind, Nat.sub_eq_zero_of_le behind]
    simp

theorem range_next (v w : Nat) (order : v < w) : List.range' v (w - v) = v :: List.range' (v + 1) (w - (v + 1)) := by
  rw [show w - v = (w - (v + 1)) + 1 by omega, List.range'_succ]

theorem table_absent (pgdir : Pgdir) (v w : Nat) (absent : pgdir.lookup (v * pgSize) = none) :
    ∀ vpn ∈ List.range' v (min (nextTable v) w - v), (pgdir.lookup (vpn * pgSize)).join = none := by
  intro vpn inside
  obtain ⟨lower, upper⟩ := List.mem_range'_1.mp inside
  rw [lookup_none_table pgdir v vpn absent lower (by omega)]
  rfl

theorem unmap_loop_pages (mem : Mem) (pgdir : Pgdir) (v w fuel : Nat) (order : v < w) (enough : w - v ≤ fuel) :
    unmapLoop mem pgdir (v * pgSize) (w * pgSize) fuel = unmapPages mem pgdir (List.range' v (w - v)) := by
  have positive : 0 < pgSize := by decide
  induction fuel generalizing mem pgdir v with
  | zero => omega
  | succ fuel ih =>
      rw [unmapLoop]
      cases found : pgdir.lookup (v * pgSize) with
      | none =>
          have above := next_table_above v
          rw [range_skip v w order, unmap_pages_append, unmap_pages_absent mem pgdir _ (table_absent pgdir v w found)]
          simp only [ok_bind, next_table_start]
          by_cases more : nextTable v < w
          · have continues : nextTable v * pgSize ≠ 0 ∧ nextTable v * pgSize < w * pgSize :=
              ⟨Nat.ne_of_gt (Nat.mul_pos (by omega) positive), Nat.mul_lt_mul_of_pos_right more positive⟩
            rw [if_pos continues]
            exact ih mem pgdir (nextTable v) more (by omega)
          · have stops : ¬ (nextTable v * pgSize ≠ 0 ∧ nextTable v * pgSize < w * pgSize) := by
              rintro ⟨_, below⟩
              exact more (Nat.lt_of_mul_lt_mul_right below)
            rw [if_neg stops, Nat.sub_eq_zero_of_le (by omega)]
            rfl
      | some entry =>
          have advance : ∀ (memR : Mem) (pgdirR : Pgdir),
              (if v * pgSize + pgSize ≠ 0 ∧ v * pgSize + pgSize < w * pgSize then
                unmapLoop memR pgdirR (v * pgSize + pgSize) (w * pgSize) fuel else .ok (memR, pgdirR)) =
              unmapPages memR pgdirR (List.range' (v + 1) (w - (v + 1))) := by
            intro memR pgdirR
            rw [← Nat.succ_mul]
            by_cases more : v + 1 < w
            · have continues : (v + 1) * pgSize ≠ 0 ∧ (v + 1) * pgSize < w * pgSize :=
                ⟨Nat.ne_of_gt (Nat.mul_pos (by omega) positive), Nat.mul_lt_mul_of_pos_right more positive⟩
              rw [if_pos continues]
              exact ih memR pgdirR (v + 1) more (by omega)
            · have stops : ¬ ((v + 1) * pgSize ≠ 0 ∧ (v + 1) * pgSize < w * pgSize) := by
                rintro ⟨_, below⟩
                exact more (Nat.lt_of_mul_lt_mul_right below)
              rw [if_neg stops, Nat.sub_eq_zero_of_le (by omega)]
              rfl
          rw [range_next v w order, unmapPages]
          cases entry with
          | none =>
              rw [no_remove mem pgdir (v * pgSize) (by simp [found])]
              exact advance mem pgdir
          | some pte =>
              simp only [Option.isSome_some, if_true]
              cases pageRemovePte mem pgdir (v * pgSize) with
              | error fault => rfl
              | ok result => exact advance result.1 result.2

theorem copy_loop_pages (mem : Mem) (target source : Pgdir) (v w fuel : Nat) (order : v < w) (enough : w - v ≤ fuel) :
    copyLoop mem target source (v * pgSize) (w * pgSize) fuel = copyPages mem target source (List.range' v (w - v)) := by
  have positive : 0 < pgSize := by decide
  induction fuel generalizing mem target v with
  | zero => omega
  | succ fuel ih =>
      have advance : ∀ (memR : Mem) (targetR : Pgdir),
          (if v * pgSize + pgSize ≠ 0 ∧ v * pgSize + pgSize < w * pgSize then
            copyLoop memR targetR source (v * pgSize + pgSize) (w * pgSize) fuel else .ok (0, memR, targetR)) =
          copyPages memR targetR source (List.range' (v + 1) (w - (v + 1))) := by
        intro memR targetR
        rw [← Nat.succ_mul]
        by_cases more : v + 1 < w
        · have continues : (v + 1) * pgSize ≠ 0 ∧ (v + 1) * pgSize < w * pgSize :=
            ⟨Nat.ne_of_gt (Nat.mul_pos (by omega) positive), Nat.mul_lt_mul_of_pos_right more positive⟩
          rw [if_pos continues]
          exact ih memR targetR (v + 1) more (by omega)
        · have stops : ¬ ((v + 1) * pgSize ≠ 0 ∧ (v + 1) * pgSize < w * pgSize) := by
            rintro ⟨_, below⟩
            exact more (Nat.lt_of_mul_lt_mul_right below)
          rw [if_neg stops, Nat.sub_eq_zero_of_le (by omega)]
          rfl
      rw [copyLoop]
      cases found : source.lookup (v * pgSize) with
      | none =>
          have above := next_table_above v
          rw [range_skip v w order, copy_pages_append mem target source _ _ (table_absent source v w found)]
          simp only [next_table_start]
          by_cases more : nextTable v < w
          · have continues : nextTable v * pgSize ≠ 0 ∧ nextTable v * pgSize < w * pgSize :=
              ⟨Nat.ne_of_gt (Nat.mul_pos (by omega) positive), Nat.mul_lt_mul_of_pos_right more positive⟩
            rw [if_pos continues]
            exact ih mem target (nextTable v) more (by omega)
          · have stops : ¬ (nextTable v * pgSize ≠ 0 ∧ nextTable v * pgSize < w * pgSize) := by
              rintro ⟨_, below⟩
              exact more (Nat.lt_of_mul_lt_mul_right below)
            rw [if_neg stops, Nat.sub_eq_zero_of_le (by omega)]
            rfl
      | some entry =>
          rw [range_next v w order, copyPages, copyPage]
          cases entry with
          | none =>
              simp only [found]
              exact advance mem target
          | some pte =>
              simp only [found]
              obtain ⟨placed, memG, targetG, got, _⟩ := get_pte_spec mem target (v * pgSize)
              cases placed with
              | false => simp [got, eNoMem]
              | true =>
                  simp only [got]
                  cases taken : memG.allocPage with
                  | none => simp
                  | some result =>
                      obtain ⟨npage, memA⟩ := result
                      simp only []
                      generalize pageInsert _ targetG npage (v * pgSize) (pte.flags &&& pteUser) = inserted
                      cases inserted with
                      | error fault => rfl
                      | ok result =>
                          obtain ⟨ret, memI, targetI⟩ := result
                          simp only [ok_bind, pure_ok]
                          by_cases failed : ret ≠ 0
                          · simp [failed]
                          · simp only [if_neg failed]
                            exact advance memI targetI

end Ucore.Vmm
