import Mathlib.Data.Set.Card
import Ucore.Vmm.PageMap

set_option autoImplicit false

namespace Ucore.Vmm

open Ucore.Lib

def Pgdir.Maps (pgdir : Pgdir) (page vpn : Nat) : Prop := (pgdir.entry vpn).map Pte.ppn = some page

instance (pgdir : Pgdir) (page : Nat) : DecidablePred (pgdir.Maps page) := fun vpn =>
  inferInstanceAs (Decidable ((pgdir.entry vpn).map Pte.ppn = some page))

-- How often an address space maps a page.
noncomputable def Pgdir.count (pgdir : Pgdir) (page : Nat) : Nat := Set.ncard {vpn | vpn < nPages ∧ pgdir.Maps page vpn}

-- One address space beside others: pages that are tables elsewhere are foreign,
-- and a page may have references from outside.
structure Space (mem : Mem) (pgdir : Pgdir) (foreign : Nat → Prop) (outside : Nat → Nat) : Prop where
  once : ∀ a b page, pgdir.pageAt a = some page → pgdir.pageAt b = some page → a = b
  tables : ∀ a page, pgdir.pageAt a = some page → mem.free page = false ∧ ¬ foreign page ∧ outside page = 0 ∧ pgdir.count page = 0
  mapped : ∀ page, 0 < pgdir.count page → mem.free page = false ∧ ¬ foreign page
  refs : ∀ page, (∀ a, pgdir.pageAt a ≠ some page) → ¬ foreign page → mem.ref page = pgdir.count page + outside page
  foreignUsed : ∀ page, foreign page → mem.free page = false
  outsideUsed : ∀ page, 0 < outside page → mem.free page = false

theorem count_congr (left right : Pgdir) (page : Nat)
    (same : ∀ vpn, vpn < nPages → (left.Maps page vpn ↔ right.Maps page vpn)) : left.count page = right.count page := by
  unfold Pgdir.count
  congr 1
  exact Set.ext fun vpn => and_congr_right (same vpn)

theorem maps_finite (pgdir : Pgdir) (page : Nat) : {vpn | vpn < nPages ∧ pgdir.Maps page vpn}.Finite :=
  (Set.finite_lt_nat nPages).subset fun _ inside => inside.1

theorem count_pos (pgdir : Pgdir) (page : Nat) : 0 < pgdir.count page ↔ ∃ vpn, vpn < nPages ∧ pgdir.Maps page vpn :=
  Set.ncard_pos (maps_finite pgdir page)

-- One entry changes.
theorem count_change (left right : Pgdir) (page target : Nat) (small : target < nPages)
    (same : ∀ vpn, vpn < nPages → vpn ≠ target → (left.Maps page vpn ↔ right.Maps page vpn)) :
    left.count page + (if right.Maps page target then 1 else 0) = right.count page + (if left.Maps page target then 1 else 0) := by
  have split : ∀ pgdir : Pgdir, pgdir.count page =
      Set.ncard ({vpn | vpn < nPages ∧ pgdir.Maps page vpn} \ {target}) + (if pgdir.Maps page target then 1 else 0) := by
    intro pgdir
    by_cases here : pgdir.Maps page target
    · rw [if_pos here, Set.ncard_sdiff_singleton_add_one (show target ∈ {vpn | vpn < nPages ∧ pgdir.Maps page vpn} from ⟨small, here⟩) (maps_finite pgdir page)]
      rfl
    · rw [if_neg here, Nat.add_zero, Set.sdiff_singleton_eq_self fun inside => here inside.2]
      rfl
  have rest : {vpn | vpn < nPages ∧ left.Maps page vpn} \ {target} = {vpn | vpn < nPages ∧ right.Maps page vpn} \ {target} := by
    ext vpn
    constructor
    · rintro ⟨⟨below, maps⟩, apart⟩
      exact ⟨⟨below, (same vpn below apart).mp maps⟩, apart⟩
    · rintro ⟨⟨below, maps⟩, apart⟩
      exact ⟨⟨below, (same vpn below apart).mpr maps⟩, apart⟩
  rw [split left, split right, rest]
  omega

theorem alloc_page_spec (mem mem' : Mem) (page : Nat) (got : mem.allocPage = some (page, mem')) :
    mem.free page = true ∧ mem' = { mem with free := Function.update mem.free page false } := by
  unfold Mem.allocPage at got
  split at got
  · split at got
    · rename_i free
      obtain ⟨rfl, rfl⟩ := by simpa using got
      exact ⟨free, rfl⟩
    · cases got
  · cases got

section Steps

variable (mem : Mem) (pgdir : Pgdir) (foreign : Nat → Prop) (outside : Nat → Nat) (space : Space mem pgdir foreign outside)

include space

-- A free page is no part of any space.
theorem free_unused (page : Nat) (free : mem.free page = true) :
    (∀ a, pgdir.pageAt a ≠ some page) ∧ ¬ foreign page ∧ outside page = 0 ∧ pgdir.count page = 0 ∧ mem.ref page = 0 := by
  have noTable : ∀ a, pgdir.pageAt a ≠ some page := fun a here => by
    have used := (space.tables a page here).1
    rw [free] at used
    cases used
  have noForeign : ¬ foreign page := fun claimed => by
    have used := space.foreignUsed page claimed
    rw [free] at used
    cases used
  have noOutside : outside page = 0 := by
    by_contra some
    have used := space.outsideUsed page (by omega)
    rw [free] at used
    cases used
  have noCount : pgdir.count page = 0 := by
    by_contra some
    have used := (space.mapped page (by omega)).1
    rw [free] at used
    cases used
  refine ⟨noTable, noForeign, noOutside, noCount, ?_⟩
  rw [space.refs page noTable noForeign, noOutside, noCount]
  rfl

theorem alloc_space (page : Nat) (mem' : Mem) (got : mem.allocPage = some (page, mem')) :
    Space mem' pgdir foreign outside ∧ mem'.free page = false ∧ mem'.ref page = 0 := by
  obtain ⟨free, rfl⟩ := alloc_page_spec mem mem' page got
  have taken : ∀ other, mem.free other = false → Function.update mem.free page false other = false := by
    intro other used
    by_cases here : other = page
    · simp [here]
    · simp [here, used]
  refine ⟨⟨space.once, fun a other here => ?_, fun other positive => ?_, space.refs, fun other claimed => ?_, fun other some => ?_⟩,
    by simp, (free_unused mem pgdir foreign outside space page free).2.2.2.2⟩
  · exact (space.tables a other here).imp_left (taken other)
  · exact (space.mapped other positive).imp_left (taken other)
  · exact taken other (space.foreignUsed other claimed)
  · exact taken other (space.outsideUsed other some)

end Steps

-- What get_pte with create does: new tables in places that had none, each in a
-- page that was free, and nothing else.
structure Grown (mem mem' : Mem) (pgdir pgdir' : Pgdir) : Prop where
  entry : ∀ vpn, vpn < nPages → pgdir'.entry vpn = pgdir.entry vpn
  kept : ∀ a page, pgdir.pageAt a = some page → pgdir'.pageAt a = some page
  fresh : ∀ a page, pgdir'.pageAt a = some page →
    pgdir.pageAt a = some page ∨ pgdir.pageAt a = none ∧ mem.free page = true ∧ mem'.free page = false
  distinct : ∀ a b page, pgdir.pageAt a = none → pgdir.pageAt b = none → pgdir'.pageAt a = some page →
    pgdir'.pageAt b = some page → a = b
  taken : ∀ page, mem'.free page = mem.free page ∨
    mem.free page = true ∧ mem'.free page = false ∧ ∃ a, pgdir'.pageAt a = some page
  refs : ∀ page, mem'.free page = mem.free page → mem'.ref page = mem.ref page
  phys : ∀ addr, mem'.free (addr / pgSize) = mem.free (addr / pgSize) → mem'.phys addr = mem.phys addr
  freed : mem'.freed = mem.freed

theorem grown_refl (mem : Mem) (pgdir : Pgdir) : Grown mem mem pgdir pgdir :=
  ⟨fun _ _ => rfl, fun _ _ here => here, fun _ _ here => .inl here, (fun _ _ _ empty _ here _ => nomatch empty.symm.trans here),
    fun _ => .inl rfl, fun _ _ => rfl, fun _ _ => rfl, rfl⟩

theorem grown_used (mem mem' : Mem) (pgdir pgdir' : Pgdir) (grown : Grown mem mem' pgdir pgdir') (page : Nat)
    (used : mem.free page = false) : mem'.free page = false := by
  rcases grown.taken page with same | ⟨free, _⟩
  · rw [same, used]
  · rw [used] at free
    cases free

theorem grown_trans (mem mem' mem'' : Mem) (pgdir pgdir' pgdir'' : Pgdir) (first : Grown mem mem' pgdir pgdir')
    (second : Grown mem' mem'' pgdir' pgdir'') : Grown mem mem'' pgdir pgdir'' := by
  have between : ∀ page, mem''.free page = mem.free page → mem'.free page = mem.free page ∧ mem''.free page = mem'.free page := by
    intro page same
    rcases first.taken page with firstSame | ⟨free, used, _⟩
    · exact ⟨firstSame, same.trans firstSame.symm⟩
    · rw [grown_used mem' mem'' pgdir' pgdir'' second page used, free] at same
      cases same
  refine ⟨fun vpn bound => (second.entry vpn bound).trans (first.entry vpn bound),
    fun a page here => second.kept a page (first.kept a page here), fun a page here => ?_, fun a b page emptyA emptyB hereA hereB => ?_,
    fun page => ?_, fun page same => ?_, fun addr same => ?_, second.freed.trans first.freed⟩
  · rcases second.fresh a page here with old | ⟨empty, free, used⟩
    · rcases first.fresh a page old with older | ⟨empty, free, used⟩
      · exact .inl older
      · exact .inr ⟨empty, free, grown_used mem' mem'' pgdir' pgdir'' second page used⟩
    · have emptyBefore : pgdir.pageAt a = none := by
        cases before : pgdir.pageAt a with
        | none => rfl
        | some old =>
            rw [first.kept a old before] at empty
            cases empty
      refine .inr ⟨emptyBefore, ?_, used⟩
      cases before : mem.free page with
      | true => rfl
      | false =>
          rw [grown_used mem mem' pgdir pgdir' first page before] at free
          cases free
  · rcases second.fresh a page hereA with oldA | ⟨stillA, freeA, _⟩
    · rcases second.fresh b page hereB with oldB | ⟨_, freeB, _⟩
      · exact first.distinct a b page emptyA emptyB oldA oldB
      · rcases first.fresh a page oldA with before | ⟨_, _, used⟩
        · rw [emptyA] at before
          cases before
        · rw [used] at freeB
          cases freeB
    · rcases second.fresh b page hereB with oldB | ⟨stillB, _, _⟩
      · rcases first.fresh b page oldB with before | ⟨_, _, used⟩
        · rw [emptyB] at before
          cases before
        · rw [used] at freeA
          cases freeA
      · exact second.distinct a b page stillA stillB hereA hereB
  · rcases second.taken page with same | ⟨free, used, place⟩
    · rcases first.taken page with older | ⟨free, used, a, here⟩
      · exact .inl (same.trans older)
      · exact .inr ⟨free, same.trans used, a, second.kept a page here⟩
    · refine .inr ⟨?_, used, place⟩
      cases before : mem.free page with
      | true => rfl
      | false =>
          rw [grown_used mem mem' pgdir pgdir' first page before] at free
          cases free
  · obtain ⟨early, late⟩ := between page same
    exact (second.refs page late).trans (first.refs page early)
  · obtain ⟨early, late⟩ := between (addr / pgSize) same
    exact (second.phys addr late).trans (first.phys addr early)

-- A new empty table in an empty place.
theorem table_grown (mem mem' : Mem) (pgdir pgdir' : Pgdir) (page : Nat) (place : TableAt)
    (got : tablePage mem = some (page, mem')) (empty : pgdir.pageAt place = none)
    (entry : ∀ vpn, vpn < nPages → pgdir'.entry vpn = pgdir.entry vpn) (here : pgdir'.pageAt place = some page)
    (away : ∀ a, a ≠ place → pgdir'.pageAt a = pgdir.pageAt a) : Grown mem mem' pgdir pgdir' := by
  unfold tablePage at got
  obtain ⟨⟨taken, memT⟩, allocated, built⟩ := Option.map_eq_some_iff.mp got
  simp only [Prod.mk.injEq] at built
  obtain ⟨rfl, rfl⟩ := built
  obtain ⟨free, rfl⟩ := alloc_page_spec mem memT taken allocated
  have atPlace : ∀ a, pgdir.pageAt a = none → (pgdir'.pageAt a).isSome → a = place := by
    intro a none' some'
    by_contra apart
    rw [away a apart, none'] at some'
    cases some'
  have changes : ∀ other, Function.update mem.free taken false other = mem.free other → other ≠ taken := by
    rintro other same rfl
    rw [Function.update_self, free] at same
    cases same
  refine ⟨entry, fun a old found => ?_, fun a other found => ?_, fun a b other emptyA emptyB foundA foundB => ?_, fun other => ?_,
    fun other same => ?_, fun addr same => ?_, rfl⟩
  · have apart : a ≠ place := by
      rintro rfl
      rw [empty] at found
      cases found
    rw [away a apart, found]
  · by_cases at' : a = place
    · subst at'
      obtain rfl : taken = other := by simpa [here] using found
      exact .inr ⟨empty, free, by simp [Mem.setRef]⟩
    · exact .inl (by rw [← away a at', found])
  · rw [atPlace a emptyA (by simp [foundA]), atPlace b emptyB (by simp [foundB])]
  · by_cases same : other = taken
    · subst same
      exact .inr ⟨free, by simp [Mem.setRef], place, here⟩
    · exact .inl (by simp [Mem.setRef, same])
  · have apart := changes other same
    simp [Mem.setRef, apart]
  · have apart := changes (addr / pgSize) same
    refine memcpy_outside mem.phys zeroBytes (taken * pgSize) pgSize addr ?_
    have positive : 0 < pgSize := by decide
    rcases Nat.lt_or_ge addr (taken * pgSize) with below | above
    · exact .inl below
    · right
      have least : taken ≤ addr / pgSize := (Nat.le_div_iff_mul_le positive).mpr above
      have next : taken + 1 ≤ addr / pgSize := by omega
      have product := (Nat.le_div_iff_mul_le positive).mp next
      rw [Nat.succ_mul] at product
      exact product

theorem grown_space (mem mem' : Mem) (pgdir pgdir' : Pgdir) (foreign : Nat → Prop) (outside : Nat → Nat)
    (space : Space mem pgdir foreign outside) (grown : Grown mem mem' pgdir pgdir') : Space mem' pgdir' foreign outside := by
  have counts : ∀ page, pgdir'.count page = pgdir.count page := fun page =>
    count_congr pgdir' pgdir page fun vpn bound => by simp only [Pgdir.Maps, grown.entry vpn bound]
  have keep := grown_used mem mem' pgdir pgdir' grown
  refine ⟨fun a b page hereA hereB => ?_, fun a page here => ?_, fun page positive => ?_, fun page absent away => ?_,
    fun page claimed => keep page (space.foreignUsed page claimed), fun page some => keep page (space.outsideUsed page some)⟩
  · rcases grown.fresh a page hereA with oldA | ⟨emptyA, freeA, _⟩
    · rcases grown.fresh b page hereB with oldB | ⟨_, freeB, _⟩
      · exact space.once a b page oldA oldB
      · exact absurd oldA ((free_unused mem pgdir foreign outside space page freeB).1 a)
    · rcases grown.fresh b page hereB with oldB | ⟨emptyB, _, _⟩
      · exact absurd oldB ((free_unused mem pgdir foreign outside space page freeA).1 b)
      · exact grown.distinct a b page emptyA emptyB hereA hereB
  · rw [counts]
    rcases grown.fresh a page here with old | ⟨_, free, used⟩
    · exact (space.tables a page old).imp_left (keep page)
    · obtain ⟨_, noForeign, noOutside, noCount, _⟩ := free_unused mem pgdir foreign outside space page free
      exact ⟨used, noForeign, noOutside, noCount⟩
  · rw [counts] at positive
    exact (space.mapped page positive).imp_left (keep page)
  · have same : mem'.free page = mem.free page := by
      rcases grown.taken page with same | ⟨_, _, a, here⟩
      · exact same
      · exact absurd here (absent a)
    rw [grown.refs page same, counts]
    exact space.refs page (fun a here => absent a (grown.kept a page here)) away

end Ucore.Vmm
