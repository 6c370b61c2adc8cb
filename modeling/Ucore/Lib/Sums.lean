import Mathlib.Algebra.BigOperators.Group.List.Lemmas
import Mathlib.Algebra.Order.BigOperators.Group.List
import Mathlib.Data.List.Basic
import Mathlib.Data.List.Nodup
import Mathlib.Tactic.Common
import Ucore.Lib.Sizes

set_option autoImplicit false

namespace Ucore.Lib

-- Sums over a list without repetitions, where one item gets another value.
section Sums

variable {Item : Type} [DecidableEq Item]

theorem sum_others (items : List Item) (item : Item) (f g : Item → Int) (nodup : items.Nodup) (member : item ∈ items)
    (same : ∀ other, other ≠ item → f other = g other) : (items.map f).sum = (items.map g).sum + f item - g item := by
  have rest : (items.erase item).map f = (items.erase item).map g := by
    apply List.map_congr_left
    intro other inside
    exact same other (nodup.mem_erase_iff.mp inside).1
  have left := List.sum_map_erase f member
  have right := List.sum_map_erase g member
  rw [rest] at left
  omega

omit [DecidableEq Item] in
theorem sum_absent (items : List Item) (item : Item) (f g : Item → Int) (absent : item ∉ items)
    (same : ∀ other, other ≠ item → f other = g other) : (items.map f).sum = (items.map g).sum := by
  congr 1
  apply List.map_congr_left
  intro other inside
  exact same other fun equal => absent (equal ▸ inside)

end Sums

-- Sums of values that are not negative.
section Nonneg

variable {Item : Type}

theorem sum_map_nonneg (items : List Item) (f : Item → Int) (nonneg : ∀ item, 0 ≤ f item) : 0 ≤ (items.map f).sum := by
  refine List.sum_nonneg fun value inside => ?_
  obtain ⟨item, _, same⟩ := List.mem_map.mp inside
  exact same ▸ nonneg item

theorem sum_map_le (items : List Item) (f : Item → Int) (nonneg : ∀ item, 0 ≤ f item) (item : Item) (member : item ∈ items) :
    f item ≤ (items.map f).sum := by
  refine List.single_le_sum (fun value inside => ?_) (f item) (List.mem_map_of_mem member)
  obtain ⟨other, _, same⟩ := List.mem_map.mp inside
  exact same ▸ nonneg other

end Nonneg

-- A list that stores due times as differences: an entry is due after the sum of
-- the differences up to it.
namespace DeltaList

variable {Item : Type}

def due [DecidableEq Item] : List (Item × Nat) → Item → Option Nat
  | [], _ => none
  | (item, delta) :: rest, wanted => if item = wanted then some delta else (due rest wanted).map (delta + ·)

def items (entries : List (Item × Nat)) : List Item := entries.map Prod.fst

-- The new entry stands behind all that are due no later.
def insert (item : Item) (time : Nat) : List (Item × Nat) → List (Item × Nat)
  | [] => [(item, time)]
  | (next, delta) :: rest =>
      if time < delta then (item, time) :: (next, delta - time) :: rest else (next, delta) :: insert item (time - delta) rest

def addFirst (time : Nat) : List (Item × Nat) → List (Item × Nat)
  | [] => []
  | (next, delta) :: rest => (next, delta + time) :: rest

def delete [DecidableEq Item] (item : Item) : List (Item × Nat) → List (Item × Nat)
  | [] => []
  | (next, delta) :: rest => if next = item then addFirst delta rest else (next, delta) :: delete item rest

def lessFirst : List (Item × Nat) → List (Item × Nat)
  | [] => []
  | (next, delta) :: rest => (next, delta - 1) :: rest

-- The entries that are due, and the others.
def dueNow (entries : List (Item × Nat)) : List Item := items (entries.takeWhile fun entry => entry.2 = 0)
def dueLater (entries : List (Item × Nat)) : List (Item × Nat) := entries.dropWhile fun entry => entry.2 = 0

def Positive [DecidableEq Item] (entries : List (Item × Nat)) : Prop := ∀ item time, due entries item = some time → 0 < time

theorem insert_items (item : Item) (time : Nat) (entries : List (Item × Nat)) :
    (items (insert item time entries)).Perm (item :: items entries) := by
  induction entries generalizing time with
  | nil => exact List.Perm.refl _
  | cons entry rest ih =>
      obtain ⟨next, delta⟩ := entry
      rw [insert]
      split
      · exact List.Perm.refl _
      · exact (List.Perm.cons next (ih (time - delta))).trans (List.Perm.swap item next _)

theorem less_first_items (entries : List (Item × Nat)) : items (lessFirst entries) = items entries := by
  cases entries <;> rfl

theorem due_now_later (entries : List (Item × Nat)) : dueNow entries ++ items (dueLater entries) = items entries := by
  rw [dueNow, dueLater, items, items, ← List.map_append, List.takeWhile_append_dropWhile, items]

section Due

variable [DecidableEq Item]

theorem delete_absent (item : Item) (entries : List (Item × Nat)) (away : item ∉ items entries) : delete item entries = entries := by
  induction entries with
  | nil => rfl
  | cons entry rest ih =>
      obtain ⟨next, delta⟩ := entry
      simp only [items, List.map_cons, List.mem_cons, not_or] at away
      rw [delete, if_neg (Ne.symm away.1), ih away.2]

theorem due_mem (entries : List (Item × Nat)) (item : Item) : (due entries item).isSome ↔ item ∈ items entries := by
  induction entries with
  | nil => simp [due, items]
  | cons entry rest ih =>
      obtain ⟨next, delta⟩ := entry
      simp only [items, List.map_cons, List.mem_cons] at ih ⊢
      rw [due]
      by_cases here : next = item
      · simp [here]
      · have apart : item ≠ next := fun same => here same.symm
        simp [here, apart, ih]

theorem due_none (entries : List (Item × Nat)) (item : Item) (away : item ∉ items entries) : due entries item = none := by
  cases found : due entries item with
  | none => rfl
  | some time => exact absurd ((due_mem entries item).mp (by simp [found])) away

theorem due_insert (item : Item) (time : Nat) (entries : List (Item × Nat)) (fresh : item ∉ items entries) (wanted : Item) :
    due (insert item time entries) wanted = if wanted = item then some time else due entries wanted := by
  induction entries generalizing time with
  | nil =>
      by_cases same : item = wanted
      · simp [insert, due, same]
      · have apart : wanted ≠ item := fun equal => same equal.symm
        simp [insert, due, same, apart]
  | cons entry rest ih =>
      obtain ⟨next, delta⟩ := entry
      simp only [items, List.map_cons, List.mem_cons, not_or] at fresh
      obtain ⟨notNext, notRest⟩ := fresh
      rw [insert]
      by_cases sooner : time < delta
      · rw [if_pos sooner]
        by_cases here : item = wanted
        · simp [due, here]
        · have apart : wanted ≠ item := fun equal => here equal.symm
          rw [due, if_neg here, if_neg apart, due, due]
          by_cases atNext : next = wanted
          · simp only [if_pos atNext, Option.map_some, Option.some.injEq]
            omega
          · rw [if_neg atNext, if_neg atNext, Option.map_map]
            congr 1
            funext amount
            simp only [Function.comp]
            omega
      · rw [if_neg sooner, due, ih (time - delta) notRest, due]
        by_cases atNext : next = wanted
        · have apart : wanted ≠ item := by
            rintro rfl
            exact notNext atNext.symm
          simp [atNext, apart]
        · rw [if_neg atNext, if_neg atNext]
          by_cases here : wanted = item
          · simp only [if_pos here, Option.map_some, Option.some.injEq]
            omega
          · rw [if_neg here, if_neg here]

theorem due_add_first (time : Nat) (entries : List (Item × Nat)) (wanted : Item) :
    due (addFirst time entries) wanted = (due entries wanted).map (time + ·) := by
  cases entries with
  | nil => rfl
  | cons entry rest =>
      obtain ⟨next, delta⟩ := entry
      rw [addFirst, due, due]
      by_cases here : next = wanted
      · simp [here, Nat.add_comm]
      · rw [if_neg here, if_neg here, Option.map_map]
        congr 1
        funext amount
        simp only [Function.comp]
        omega

theorem due_delete (item : Item) (entries : List (Item × Nat)) (distinct : (items entries).Nodup) (wanted : Item) :
    due (delete item entries) wanted = if wanted = item then none else due entries wanted := by
  induction entries with
  | nil => simp [delete, due]
  | cons entry rest ih =>
      obtain ⟨next, delta⟩ := entry
      simp only [items, List.map_cons, List.nodup_cons] at distinct
      obtain ⟨notRest, distinctRest⟩ := distinct
      rw [delete]
      by_cases here : next = item
      · subst here
        rw [if_pos rfl, due_add_first, due]
        by_cases same : wanted = next
        · subst same
          rw [if_pos rfl, due_none rest wanted notRest]
          rfl
        · rw [if_neg same, if_neg (Ne.symm same)]
      · rw [if_neg here, due, ih distinctRest, due]
        by_cases atNext : next = wanted
        · subst atNext
          simp [here]
        · rw [if_neg atNext, if_neg atNext]
          by_cases same : wanted = item
          · simp [same]
          · simp [same]

theorem due_less_first (entries : List (Item × Nat)) (positive : Positive entries) (wanted : Item) :
    due (lessFirst entries) wanted = (due entries wanted).map (· - 1) := by
  cases entries with
  | nil => rfl
  | cons entry rest =>
      obtain ⟨next, delta⟩ := entry
      have first : 0 < delta := positive next delta (by simp [due])
      rw [lessFirst, due, due]
      by_cases here : next = wanted
      · simp [here]
      · rw [if_neg here, if_neg here, Option.map_map]
        congr 1
        funext amount
        simp only [Function.comp]
        omega

theorem due_later (entries : List (Item × Nat)) (distinct : (items entries).Nodup) (wanted : Item) :
    due (dueLater entries) wanted = if due entries wanted = some 0 then none else due entries wanted := by
  induction entries with
  | nil => simp [dueLater, due]
  | cons entry rest ih =>
      obtain ⟨next, delta⟩ := entry
      simp only [items, List.map_cons, List.nodup_cons] at distinct
      obtain ⟨notRest, distinctRest⟩ := distinct
      rw [dueLater, List.dropWhile_cons]
      cases delta with
      | zero =>
          have later := ih distinctRest
          rw [dueLater] at later
          simp only [decide_true, if_true, later, due]
          by_cases here : next = wanted
          · subst here
            simp [due_none rest next notRest]
          · simp [here]
      | succ less =>
          have ahead : due ((next, less + 1) :: rest) wanted ≠ some 0 := by
            rw [due]
            split
            · simp
            · simp only [ne_eq, Option.map_eq_some_iff, not_exists, not_and]
              omega
          rw [if_neg (by simp), if_neg ahead]

theorem due_now (entries : List (Item × Nat)) (distinct : (items entries).Nodup) (item : Item) :
    item ∈ dueNow entries ↔ due entries item = some 0 := by
  have later := due_mem (dueLater entries) item
  have split := due_now_later entries
  have apart : item ∈ dueNow entries → item ∉ items (dueLater entries) := by
    intro inNow inLater
    rw [← split] at distinct
    exact (List.nodup_append.mp distinct).2.2 item inNow item inLater rfl
  rw [due_later entries distinct item] at later
  constructor
  · intro inNow
    by_contra notNow
    rw [if_neg notNow, due_mem] at later
    have inside : item ∈ items entries := by
      rw [← split]
      simp [inNow]
    exact apart inNow (later.mp inside)
  · intro now
    rw [if_pos now] at later
    have inside := (due_mem entries item).mp (by simp [now])
    rw [← split, List.mem_append] at inside
    rcases inside with inNow | inLater
    · exact inNow
    · exact absurd (later.mpr inLater) (by simp)

theorem due_tick (entries : List (Item × Nat)) (positive : Positive entries) (distinct : (items entries).Nodup) (wanted : Item) :
    due (dueLater (lessFirst entries)) wanted = (due entries wanted).bind fun time => if time = 1 then none else some (time - 1) := by
  rw [due_later _ (by rwa [less_first_items]), due_less_first entries positive]
  cases found : due entries wanted with
  | none => rfl
  | some time =>
      have ahead := positive wanted time found
      simp only [Option.map_some, Option.some.injEq, Option.bind_some]
      by_cases last : time = 1
      · simp [last]
      · rw [if_neg (by omega), if_neg last]

theorem now_tick (entries : List (Item × Nat)) (positive : Positive entries) (distinct : (items entries).Nodup) (item : Item) :
    item ∈ dueNow (lessFirst entries) ↔ due entries item = some 1 := by
  rw [due_now _ (by rwa [less_first_items]), due_less_first entries positive]
  cases found : due entries item with
  | none => simp
  | some time =>
      have ahead := positive item time found
      simp only [Option.map_some, Option.some.injEq]
      omega

end Due

end DeltaList

end Ucore.Lib
