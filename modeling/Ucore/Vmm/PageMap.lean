import Mathlib.Tactic.Common
import Ucore.Vmm.Vmm

set_option autoImplicit false

namespace Ucore.Vmm

open Ucore.Lib

-- Pages of the address space that three levels of 512 entries reach.
def nPages : Nat := 134217728

-- What a virtual page is mapped to.
def Pgdir.entry (pgdir : Pgdir) (vpn : Nat) : Option Pte := (pgdir.lookup (vpn * pgSize)).join

-- The places of the tables of an address space.
inductive TableAt where
  | root
  | dir (d1 : Fin 512)
  | table (d1 d0 : Fin 512)

def PageDir.tablePage (dir : PageDir) (d0 : Fin 512) : Option Nat := (dir.entries d0).map PageTable.page

def Pgdir.pageAt (pgdir : Pgdir) : TableAt → Option Nat
  | .root => some pgdir.page
  | .dir d1 => (pgdir.entries d1).map PageDir.page
  | .table d1 d0 => (pgdir.entries d1).bind fun dir => dir.tablePage d0

theorem index_page (la : Nat) : pdx1 (la / pgSize * pgSize) = pdx1 la ∧ pdx0 (la / pgSize * pgSize) = pdx0 la ∧
    ptx (la / pgSize * pgSize) = ptx la := by
  refine ⟨Fin.ext ?_, Fin.ext ?_, Fin.ext ?_⟩
  · simp only [pdx1, pdSize, pgSize, Fin.val_ofNat]
    omega
  · simp only [pdx0, ptSize, pgSize, Fin.val_ofNat]
    omega
  · simp only [ptx, pgSize, Fin.val_ofNat]
    omega

theorem index_injective (v w : Nat) (boundV : v < nPages) (boundW : w < nPages) (one : pdx1 (v * pgSize) = pdx1 (w * pgSize))
    (zero : pdx0 (v * pgSize) = pdx0 (w * pgSize)) (leaf : ptx (v * pgSize) = ptx (w * pgSize)) : v = w := by
  have oneVal := congrArg Fin.val one
  have zeroVal := congrArg Fin.val zero
  have leafVal := congrArg Fin.val leaf
  simp only [pdx1, pdx0, ptx, pdSize, ptSize, pgSize, Fin.val_ofNat] at oneVal zeroVal leafVal
  simp only [nPages] at boundV boundW
  omega

theorem lookup_page (pgdir : Pgdir) (la : Nat) : pgdir.lookup (la / pgSize * pgSize) = pgdir.lookup la := by
  obtain ⟨one, zero, leaf⟩ := index_page la
  rw [Pgdir.lookup, Pgdir.lookup, one, zero, leaf]

theorem lookup_entry (pgdir : Pgdir) (la : Nat) : (pgdir.lookup la).join = pgdir.entry (la / pgSize) := by
  rw [Pgdir.entry, lookup_page]

section SetPte

variable (pgdir : Pgdir) (la : Nat) (pte : Option Pte)

theorem lookup_some (old : Option Pte) (found : pgdir.lookup la = some old) : ∃ dir table, pgdir.entries (pdx1 la) = some dir ∧
    dir.entries (pdx0 la) = some table ∧ table.entries (ptx la) = old := by
  cases atDir : pgdir.entries (pdx1 la) with
  | none => simp [Pgdir.lookup, atDir] at found
  | some dir =>
      cases atTable : dir.entries (pdx0 la) with
      | none => simp [Pgdir.lookup, atDir, atTable] at found
      | some table => exact ⟨dir, table, rfl, atTable, by simpa [Pgdir.lookup, atDir, atTable] using found⟩

theorem set_pte_lookup (old : Option Pte) (found : pgdir.lookup la = some old) (other : Nat) :
    (pgdir.setPte la pte).lookup other =
      if pdx1 other = pdx1 la ∧ pdx0 other = pdx0 la ∧ ptx other = ptx la then some pte else pgdir.lookup other := by
  obtain ⟨dir, table, atDir, atTable, _⟩ := lookup_some pgdir la old found
  have set : pgdir.setPte la pte = pgdir.setDir (pdx1 la) (some (dir.setTable (pdx0 la) (some (table.setEntry (ptx la) pte)))) := by
    simp [Pgdir.setPte, atDir, atTable]
  rw [set]
  by_cases one : pdx1 other = pdx1 la
  · by_cases zero : pdx0 other = pdx0 la
    · by_cases leaf : ptx other = ptx la
      · simp [Pgdir.lookup, Pgdir.setDir, PageDir.setTable, PageTable.setEntry, one, zero, leaf]
      · simp [Pgdir.lookup, Pgdir.setDir, PageDir.setTable, PageTable.setEntry, one, zero, leaf, atDir, atTable]
    · simp [Pgdir.lookup, Pgdir.setDir, PageDir.setTable, one, zero, atDir]
  · simp [Pgdir.lookup, Pgdir.setDir, one]

theorem set_pte_entry (old : Option Pte) (found : pgdir.lookup la = some old) (small : la / pgSize < nPages) (vpn : Nat)
    (bound : vpn < nPages) : (pgdir.setPte la pte).entry vpn = if vpn = la / pgSize then pte else pgdir.entry vpn := by
  obtain ⟨one, zero, leaf⟩ := index_page la
  rw [Pgdir.entry, set_pte_lookup pgdir la pte old found]
  by_cases here : vpn = la / pgSize
  · rw [here, if_pos ⟨one, zero, leaf⟩, if_pos rfl]
    rfl
  · rw [if_neg here, if_neg]
    · rfl
    · rintro ⟨sameOne, sameZero, sameLeaf⟩
      exact here (index_injective vpn (la / pgSize) bound small (sameOne.trans one.symm) (sameZero.trans zero.symm)
        (sameLeaf.trans leaf.symm))

theorem set_pte_page (place : TableAt) : (pgdir.setPte la pte).pageAt place = pgdir.pageAt place := by
  cases atDir : pgdir.entries (pdx1 la) with
  | none => simp [Pgdir.setPte, atDir]
  | some dir =>
      cases atTable : dir.entries (pdx0 la) with
      | none => simp [Pgdir.setPte, atDir, atTable]
      | some table =>
          have set : pgdir.setPte la pte =
              pgdir.setDir (pdx1 la) (some (dir.setTable (pdx0 la) (some (table.setEntry (ptx la) pte)))) := by
            simp [Pgdir.setPte, atDir, atTable]
          rw [set]
          cases place with
          | root => rfl
          | dir d1 =>
              by_cases one : d1 = pdx1 la
              · subst one
                simp [Pgdir.pageAt, Pgdir.setDir, PageDir.setTable, atDir]
              · simp [Pgdir.pageAt, Pgdir.setDir, one]
          | table d1 d0 =>
              by_cases one : d1 = pdx1 la
              · subst one
                by_cases zero : d0 = pdx0 la
                · subst zero
                  simp [Pgdir.pageAt, Pgdir.setDir, PageDir.setTable, PageDir.tablePage, PageTable.setEntry, atDir, atTable]
                · simp [Pgdir.pageAt, Pgdir.setDir, PageDir.setTable, PageDir.tablePage, atDir, zero]
              · simp [Pgdir.pageAt, Pgdir.setDir, one]

end SetPte

end Ucore.Vmm
