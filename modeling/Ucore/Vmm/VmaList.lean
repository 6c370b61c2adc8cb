import Mathlib.Data.List.TakeWhile
import Ucore.Lib.Run
import Ucore.Vmm.Spaces

set_option autoImplicit false

namespace Ucore.Vmm

open Ucore.Lib

-- The areas stand in the order of their addresses and share no byte.
structure Ordered (list : List Vma) : Prop where
  apart : list.Pairwise fun left right => left.vmEnd ≤ right.vmStart
  positive : ∀ vma ∈ list, vma.vmStart < vma.vmEnd

theorem areas_ordered (list : List Vma) (areas : Areas list) : Ordered list :=
  ⟨areas.apart, fun vma listed => (areas.fits vma listed).2.2.2.1⟩

def Vma.Apart (left right : Vma) : Prop := left.vmEnd ≤ right.vmStart ∨ right.vmEnd ≤ left.vmStart

instance : Std.Symm Vma.Apart := ⟨fun _ _ apart => apart.symm⟩

theorem ordered_unique (list : List Vma) (ordered : Ordered list) (addr : Nat) (left right : Vma) (first : left ∈ list) (second : right ∈ list)
    (inLeft : left.Has addr) (inRight : right.Has addr) : left = right := by
  have away : list.Pairwise Vma.Apart := ordered.apart.imp Or.inl
  by_contra differ
  have apart := away.forall first second differ
  simp only [Vma.Apart, Vma.Has] at apart inLeft inRight
  omega

-- insert_vma_struct on a new area that meets none: it passes the checks and puts the
-- area between those below and those above.
theorem insert_vma_ok (mm : Mm) (vma : Vma) (ordered : Ordered mm.mmapList) (positive : vma.vmStart < vma.vmEnd)
    (apart : ∀ other ∈ mm.mmapList, Vma.Apart other vma) :
    ∃ before after, mm.mmapList = before ++ after ∧ Ordered (before ++ vma :: after) ∧
      insertVmaStruct mm vma = .ok { mm with mmapList := before ++ vma :: after, mapCount := mm.mapCount + 1 } := by
  generalize shapeBefore : mm.mmapList.takeWhile (fun prev => !(vma.vmStart < prev.vmStart : Bool)) = before
  generalize shapeAfter : mm.mmapList.dropWhile (fun prev => !(vma.vmStart < prev.vmStart : Bool)) = after
  have whole : mm.mmapList = before ++ after := by rw [← shapeBefore, ← shapeAfter, List.takeWhile_append_dropWhile]
  rw [whole] at ordered apart
  obtain ⟨apartBefore, apartAfter, across⟩ := List.pairwise_append.mp ordered.apart
  have below : ∀ prev ∈ before, prev.vmEnd ≤ vma.vmStart := by
    intro prev inside
    have order : prev.vmStart ≤ vma.vmStart := by
      rw [← shapeBefore] at inside
      simpa using List.mem_takeWhile_imp inside
    rcases apart prev (by simp [inside]) with under | exceeds
    · exact under
    · omega
  have above : ∀ next ∈ after, vma.vmEnd ≤ next.vmStart := by
    intro next inside
    have order : vma.vmStart < next.vmStart := by
      cases after with
      | nil => cases inside
      | cons head rest =>
          have first : vma.vmStart < head.vmStart := by
            have stops := List.head?_dropWhile_not (fun prev : Vma => !(vma.vmStart < prev.vmStart : Bool)) mm.mmapList
            rw [shapeAfter] at stops
            simpa using stops
          rcases List.mem_cons.mp inside with rfl | later
          · exact first
          · have behind := (List.pairwise_cons.mp apartAfter).1 next later
            have size := ordered.positive head (by simp)
            omega
    have size := ordered.positive next (by simp [inside])
    rcases apart next (by simp [inside]) with under | exceeds
    · omega
    · exact exceeds
  refine ⟨before, after, whole, ⟨?_, fun other inside => ?_⟩, ?_⟩
  · refine List.pairwise_append.mpr ⟨apartBefore, List.pairwise_cons.mpr ⟨above, apartAfter⟩, fun left inside right there => ?_⟩
    rcases List.mem_cons.mp there with rfl | later
    · exact below left inside
    · exact across left inside right later
  · rcases List.mem_append.mp inside with early | late
    · exact ordered.positive other (by simp [early])
    · rcases List.mem_cons.mp late with rfl | later
      · exact positive
      · exact ordered.positive other (by simp [later])
  · have checkedBefore : checkNeighbours before.getLast? (some vma) = .ok () := by
      cases found : before.getLast? with
      | none => rfl
      | some prev =>
          have inside := List.mem_of_getLast? found
          have size := ordered.positive prev (by simp [inside])
          simp [checkNeighbours, checkVmaOverlap, size, below prev inside, positive]
    have checkedAfter : checkNeighbours (some vma) after.head? = .ok () := by
      cases found : after.head? with
      | none => rfl
      | some next =>
          have inside := List.mem_of_head? found
          have size := ordered.positive next (by simp [inside])
          simp [checkNeighbours, checkVmaOverlap, size, above next inside, positive]
    simp [insertVmaStruct, shapeBefore, shapeAfter, checkedBefore, checkedAfter, positive]

-- mmap_cache is NULL or one of the areas.
def Mm.Cached (mm : Mm) : Prop := ∀ vma, mm.mmapCache = some vma → vma ∈ mm.mmapList

theorem find_vma_some (mm : Mm) (addr : Nat) (ordered : Ordered mm.mmapList) (cached : mm.Cached) (vma : Vma) :
    (findVma mm addr).1 = some vma ↔ vma ∈ mm.mmapList ∧ vma.Has addr := by
  have listed : mm.mmapList.find? (fun vma => vma.Has addr) = some vma ↔ vma ∈ mm.mmapList ∧ vma.Has addr := by
    constructor
    · intro found
      exact ⟨List.mem_of_find?_eq_some found, by simpa using List.find?_some found⟩
    · rintro ⟨member, inside⟩
      cases found : mm.mmapList.find? (fun vma => vma.Has addr) with
      | none =>
          have missed := List.find?_eq_none.mp found vma member
          simp [inside] at missed
      | some other =>
          have same := ordered_unique mm.mmapList ordered addr other vma (List.mem_of_find?_eq_some found) member
            (by simpa using List.find?_some found) inside
          rw [same]
  cases hit : mm.mmapCache.filter (fun vma => vma.Has addr) with
  | none => simpa [findVma, hit] using listed
  | some other =>
      obtain ⟨kept, inside⟩ := Option.filter_eq_some_iff.mp hit
      have inOther : other.Has addr := by simpa using inside
      have member := cached other kept
      simp only [findVma, hit, Option.isSome_some, if_true, Option.some.injEq]
      constructor
      · intro same
        exact same ▸ ⟨member, inOther⟩
      · intro both
        exact ordered_unique mm.mmapList ordered addr other vma member both.1 inOther both.2

theorem find_vma_none (mm : Mm) (addr : Nat) (ordered : Ordered mm.mmapList) (cached : mm.Cached) :
    (findVma mm addr).1 = none ↔ ∀ vma ∈ mm.mmapList, ¬ vma.Has addr := by
  have found := find_vma_some mm addr ordered cached
  rw [Option.eq_none_iff_forall_ne_some]
  constructor
  · intro nothing vma member inside
    exact nothing vma ((found vma).mpr ⟨member, inside⟩)
  · intro missed vma some'
    obtain ⟨member, inside⟩ := (found vma).mp some'
    exact missed vma member inside

theorem find_vma_snd (mm : Mm) (addr : Nat) :
    (findVma mm addr).2 = if (findVma mm addr).1.isSome then { mm with mmapCache := (findVma mm addr).1 } else mm := rfl

theorem find_vma_frame (mm : Mm) (addr : Nat) : (findVma mm addr).2.mmapList = mm.mmapList ∧ (findVma mm addr).2.mapCount = mm.mapCount := by
  rw [find_vma_snd]
  cases (findVma mm addr).1 with
  | none => exact ⟨rfl, rfl⟩
  | some vma => exact ⟨rfl, rfl⟩

theorem find_vma_cached (mm : Mm) (addr : Nat) (ordered : Ordered mm.mmapList) (cached : mm.Cached) : (findVma mm addr).2.Cached := by
  rw [find_vma_snd]
  cases found : (findVma mm addr).1 with
  | none => exact cached
  | some other =>
      intro vma held
      obtain rfl : other = vma := Option.some.inj held
      exact ((find_vma_some mm addr ordered cached other).mp found).1

-- The calls on one mm_struct.
inductive VmaCall where
  | insertVma (vma : Vma)
  | find (addr : Nat)
deriving DecidableEq, Repr

def Mm.vmaStep (mm : Mm) : VmaCall → Option Mm
  | .insertVma vma => (insertVmaStruct mm vma).toOption
  | .find addr => some (findVma mm addr).2

-- The mm_struct of mm_create.
def Mm.fresh (pgdir : Pgdir) : Mm := ⟨[], none, pgdir, 0⟩

def inserted : List VmaCall → List Vma
  | [] => []
  | .insertVma vma :: calls => vma :: inserted calls
  | .find _ :: calls => inserted calls

-- The list holds the areas in their order, and a query answers from it whatever
-- the cache is.
structure Exact (mm : Mm) (vmas : List Vma) : Prop where
  ordered : Ordered mm.mmapList
  listed : mm.mmapList.Perm vmas
  counted : mm.mapCount = mm.mmapList.length
  found : ∀ addr vma, (findVma mm addr).1 = some vma ↔ vma ∈ mm.mmapList ∧ vma.Has addr
  missed : ∀ addr, (findVma mm addr).1 = none ↔ ∀ vma ∈ mm.mmapList, ¬ vma.Has addr
  uncached : ∀ addr, (findVma mm addr).1 = (findVma { mm with mmapCache := none } addr).1

structure VmaInv (mm : Mm) (vmas : List Vma) : Prop where
  ordered : Ordered mm.mmapList
  cached : mm.Cached
  listed : mm.mmapList.Perm vmas
  counted : mm.mapCount = mm.mmapList.length

theorem vma_inv_exact (mm : Mm) (vmas : List Vma) (inv : VmaInv mm vmas) : Exact mm vmas where
  ordered := inv.ordered
  listed := inv.listed
  counted := inv.counted
  found := fun addr vma => find_vma_some mm addr inv.ordered inv.cached vma
  missed := fun addr => find_vma_none mm addr inv.ordered inv.cached
  uncached := fun addr => by
    have empty : Mm.Cached { mm with mmapCache := none } := fun vma held => by cases held
    refine Option.ext fun vma => ?_
    rw [find_vma_some mm addr inv.ordered inv.cached vma, find_vma_some { mm with mmapCache := none } addr inv.ordered empty vma]

theorem vma_insert_inv (mm : Mm) (vmas : List Vma) (vma : Vma) (inv : VmaInv mm vmas) (positive : vma.vmStart < vma.vmEnd)
    (apart : ∀ other ∈ vmas, Vma.Apart other vma) : ∃ mm', mm.vmaStep (.insertVma vma) = some mm' ∧ VmaInv mm' (vmas ++ [vma]) := by
  obtain ⟨before, after, whole, ordered, ran⟩ := insert_vma_ok mm vma inv.ordered positive fun other inside => apart other (inv.listed.mem_iff.mp inside)
  have listed := inv.listed
  have counted := inv.counted
  rw [whole] at listed counted
  refine ⟨_, by simp only [Mm.vmaStep, ran]; rfl, ordered, fun other held => ?_, ?_, ?_⟩
  · have member := inv.cached other held
    rw [whole] at member
    simp only [List.mem_append, List.mem_cons] at member ⊢
    tauto
  · have front : (before ++ vma :: after).Perm (vma :: vmas) := List.perm_middle.trans (listed.cons vma)
    exact front.trans (List.perm_append_singleton vma vmas).symm
  · simp only [List.length_append, List.length_cons] at counted ⊢
    omega

theorem vma_run (calls : List VmaCall) (mm : Mm) (past : List Vma) (inv : VmaInv mm past) (positive : ∀ vma ∈ inserted calls, vma.vmStart < vma.vmEnd)
    (apart : (past ++ inserted calls).Pairwise Vma.Apart) :
    ∃ mm', run Mm.vmaStep mm calls = some mm' ∧ VmaInv mm' (past ++ inserted calls) := by
  induction calls generalizing mm past with
  | nil => exact ⟨mm, rfl, by simpa [inserted] using inv⟩
  | cons call calls ih =>
      cases call with
      | insertVma vma =>
          have flat : past ++ inserted (.insertVma vma :: calls) = (past ++ [vma]) ++ inserted calls := by simp [inserted]
          rw [flat] at apart ⊢
          obtain ⟨first, _, _⟩ := List.pairwise_append.mp apart
          obtain ⟨_, _, across⟩ := List.pairwise_append.mp first
          obtain ⟨next, stepped, after⟩ := vma_insert_inv mm past vma inv (positive vma (by simp [inserted]))
            fun other inside => across other inside vma (by simp)
          obtain ⟨final, ran, done⟩ := ih next (past ++ [vma]) after (fun other later => positive other (by simp [inserted, later])) apart
          exact ⟨final, by simp [run, stepped, ran], done⟩
      | find addr =>
          have frame := find_vma_frame mm addr
          have after : VmaInv (findVma mm addr).2 past := by
            refine ⟨?_, find_vma_cached mm addr inv.ordered inv.cached, ?_, ?_⟩
            · exact frame.1 ▸ inv.ordered
            · exact frame.1 ▸ inv.listed
            · rw [frame.1, frame.2]
              exact inv.counted
          obtain ⟨final, ran, done⟩ := ih (findVma mm addr).2 past after positive apart
          exact ⟨final, by simp [run, Mm.vmaStep, ran], done⟩

-- Any order of insertions of areas that do not meet, with any queries between them.
theorem vma_lookup_exact (pgdir : Pgdir) (calls : List VmaCall) (positive : ∀ vma ∈ inserted calls, vma.vmStart < vma.vmEnd)
    (apart : (inserted calls).Pairwise Vma.Apart) :
    ∃ mm, run Mm.vmaStep (Mm.fresh pgdir) calls = some mm ∧ Exact mm (inserted calls) := by
  have start : VmaInv (Mm.fresh pgdir) [] := ⟨⟨List.Pairwise.nil, by simp [Mm.fresh]⟩, by simp [Mm.Cached, Mm.fresh], List.Perm.refl _, rfl⟩
  obtain ⟨mm, ran, inv⟩ := vma_run calls (Mm.fresh pgdir) [] start positive apart
  exact ⟨mm, ran, vma_inv_exact mm _ inv⟩

-- Three areas, not in their order, with queries that fill the cache.
def threeAreas : List VmaCall := [.insertVma ⟨10, 12, 0⟩, .find 11, .insertVma ⟨5, 7, 0⟩, .find 6, .insertVma ⟨7, 10, 0⟩]

theorem vma_lookup_exact_three : ∃ mm, run Mm.vmaStep (Mm.fresh ⟨0, fun _ => none⟩) threeAreas = some mm ∧
    Exact mm [⟨10, 12, 0⟩, ⟨5, 7, 0⟩, ⟨7, 10, 0⟩] :=
  vma_lookup_exact ⟨0, fun _ => none⟩ threeAreas (by decide) (by simp [threeAreas, inserted, Vma.Apart])

-- The new range meets an area that is there.
def Vma.Meets (vma : Vma) (start stop : Nat) : Prop := vma.vmStart < stop ∧ start < vma.vmEnd

instance (vma : Vma) (start stop : Nat) : Decidable (vma.Meets start stop) := inferInstanceAs (Decidable (vma.vmStart < stop ∧ start < vma.vmEnd))

-- mm_map either puts in exactly the pages of the request, or says -E_INVAL and
-- leaves the list; and it fails no assertion.
def MapsCleanly (mm : Mm) (addr len vmFlags : Nat) : Prop :=
  let start := roundDown addr pgSize
  let stop := roundUp (addr + len) pgSize
  if UserAccess start stop ∧ ∀ vma ∈ mm.mmapList, ¬ vma.Meets start stop then
    ∃ mm' before after, mmMap mm addr len vmFlags = .ok (0, mm') ∧ mm.mmapList = before ++ after ∧
      mm'.mmapList = before ++ ⟨start, stop, vmFlags⟩ :: after ∧ Ordered mm'.mmapList ∧ mm'.mapCount = mm.mapCount + 1
  else ∃ mm', mmMap mm addr len vmFlags = .ok (eInval, mm') ∧ mm'.mmapList = mm.mmapList ∧ mm'.mapCount = mm.mapCount

-- Where the range ends for the code: the sum is a 64-bit one.
def mapStop (addr len : Nat) : Nat := roundUp ((addr + len) % 2 ^ 64) pgSize

-- The range is not one of the user, or it begins in an area, or it meets none and
-- the sum of addr and len does not overflow.
def MapHandled (mm : Mm) (addr len : Nat) : Prop :=
  ¬ UserAccess (roundDown addr pgSize) (mapStop addr len) ∨ (∃ vma ∈ mm.mmapList, vma.Has (roundDown addr pgSize)) ∨
    (addr + len < 2 ^ 64 ∧ ∀ vma ∈ mm.mmapList, ¬ vma.Meets (roundDown addr pgSize) (mapStop addr len))

theorem round_up_le (a : Nat) : a ≤ roundUp a pgSize := by
  simp only [roundUp, roundDown, pgSize]
  omega

theorem map_stop_small (addr len : Nat) (small : addr + len < 2 ^ 64) : mapStop addr len = roundUp (addr + len) pgSize := by
  rw [mapStop, Nat.mod_eq_of_lt small]

-- With the sum in range the code's range is the one asked for; with an overflow the
-- one asked for leaves user space.
theorem not_user_overflow (addr len : Nat) (big : 2 ^ 64 ≤ addr + len) : ¬ UserAccess (roundDown addr pgSize) (roundUp (addr + len) pgSize) := by
  intro user
  have bound := round_up_le (addr + len)
  have top := user.2.2
  simp only [userTop] at top
  omega

theorem mm_map_eq (mm : Mm) (addr len vmFlags : Nat) : mmMap mm addr len vmFlags =
    if ¬ UserAccess (roundDown addr pgSize) (mapStop addr len) then .ok (eInval, mm)
    else if (findVma mm (roundDown addr pgSize)).1.any fun vma => vma.vmStart < mapStop addr len then
      .ok (eInval, (findVma mm (roundDown addr pgSize)).2)
    else do
      let mm' ← insertVmaStruct (findVma mm (roundDown addr pgSize)).2 ⟨roundDown addr pgSize, mapStop addr len, vmFlags⟩
      return (0, mm') := rfl

section Map

variable (mm : Mm) (addr len vmFlags : Nat) (ordered : Ordered mm.mmapList) (cached : mm.Cached)

theorem mm_map_not_user (user : ¬ UserAccess (roundDown addr pgSize) (mapStop addr len)) : mmMap mm addr len vmFlags = .ok (eInval, mm) := by
  rw [mm_map_eq, if_pos user]

include ordered cached

theorem mm_map_begins_inside (user : UserAccess (roundDown addr pgSize) (mapStop addr len)) (vma : Vma) (member : vma ∈ mm.mmapList)
    (inside : vma.Has (roundDown addr pgSize)) : mmMap mm addr len vmFlags = .ok (eInval, (findVma mm (roundDown addr pgSize)).2) := by
  have found := (find_vma_some mm (roundDown addr pgSize) ordered cached vma).mpr ⟨member, inside⟩
  have below : vma.vmStart < mapStop addr len := Nat.lt_of_le_of_lt inside.1 user.2.1
  rw [mm_map_eq, if_neg (not_not.mpr user), found, if_pos (by simpa using below)]

theorem mm_map_gap (user : UserAccess (roundDown addr pgSize) (mapStop addr len)) (gap : ∀ vma ∈ mm.mmapList, ¬ vma.Has (roundDown addr pgSize)) :
    mmMap mm addr len vmFlags = (insertVmaStruct mm ⟨roundDown addr pgSize, mapStop addr len, vmFlags⟩).map fun mm' => (0, mm') := by
  have missed := (find_vma_none mm (roundDown addr pgSize) ordered cached).mpr gap
  rw [mm_map_eq, if_neg (not_not.mpr user), find_vma_snd, missed]
  cases inserted : insertVmaStruct mm ⟨roundDown addr pgSize, mapStop addr len, vmFlags⟩ with
  | error fault => simp [inserted, Except.map]
  | ok mm' => simp [inserted, Except.map]

theorem mm_map_rejects (user : UserAccess (roundDown addr pgSize) (mapStop addr len)) (vma : Vma) (member : vma ∈ mm.mmapList)
    (inside : vma.Has (roundDown addr pgSize)) : MapsCleanly mm addr len vmFlags := by
  have meets : ¬ (UserAccess (roundDown addr pgSize) (roundUp (addr + len) pgSize) ∧
      ∀ vma ∈ mm.mmapList, ¬ vma.Meets (roundDown addr pgSize) (roundUp (addr + len) pgSize)) := by
    rintro ⟨asked, none'⟩
    exact none' vma member ⟨Nat.lt_of_le_of_lt inside.1 asked.2.1, inside.2⟩
  have frame := find_vma_frame mm (roundDown addr pgSize)
  simp only [MapsCleanly]
  rw [if_neg meets]
  exact ⟨_, mm_map_begins_inside mm addr len vmFlags ordered cached user vma member inside, frame.1, frame.2⟩

theorem mm_map_inserts (user : UserAccess (roundDown addr pgSize) (mapStop addr len)) (small : addr + len < 2 ^ 64)
    (free : ∀ vma ∈ mm.mmapList, ¬ vma.Meets (roundDown addr pgSize) (mapStop addr len)) : MapsCleanly mm addr len vmFlags := by
  have gap : ∀ vma ∈ mm.mmapList, ¬ vma.Has (roundDown addr pgSize) := fun vma member inside =>
    free vma member ⟨Nat.lt_of_le_of_lt inside.1 user.2.1, inside.2⟩
  have result := mm_map_gap mm addr len vmFlags ordered cached user gap
  obtain ⟨before, after, whole, sorted, ran⟩ := insert_vma_ok mm ⟨roundDown addr pgSize, mapStop addr len, vmFlags⟩ ordered user.2.1
    fun other member => by
      have away := free other member
      simp only [Vma.Meets] at away
      simp only [Vma.Apart]
      omega
  rw [ran] at result
  rw [map_stop_small addr len small] at user free result sorted
  simp only [MapsCleanly]
  rw [if_pos ⟨user, free⟩]
  exact ⟨_, before, after, result, whole, rfl, sorted, rfl⟩

-- With an area further up in the range, or an overflow, the code goes on to insert.
theorem mm_map_goes_on (user : UserAccess (roundDown addr pgSize) (mapStop addr len)) (gap : ∀ vma ∈ mm.mmapList, ¬ vma.Has (roundDown addr pgSize))
    (conflict : ¬ (addr + len < 2 ^ 64 ∧ ∀ vma ∈ mm.mmapList, ¬ vma.Meets (roundDown addr pgSize) (mapStop addr len))) :
    ¬ MapsCleanly mm addr len vmFlags := by
  have refused : ¬ (UserAccess (roundDown addr pgSize) (roundUp (addr + len) pgSize) ∧
      ∀ vma ∈ mm.mmapList, ¬ vma.Meets (roundDown addr pgSize) (roundUp (addr + len) pgSize)) := by
    rintro ⟨asked, free⟩
    by_cases small : addr + len < 2 ^ 64
    · exact conflict ⟨small, map_stop_small addr len small ▸ free⟩
    · exact not_user_overflow addr len (by omega) asked
  simp only [MapsCleanly]
  rw [if_neg refused, mm_map_gap mm addr len vmFlags ordered cached user gap]
  rintro ⟨mm', result, _⟩
  cases ran : insertVmaStruct mm ⟨roundDown addr pgSize, mapStop addr len, vmFlags⟩ with
  | error fault => simp [ran, Except.map] at result
  | ok other => simp [ran, Except.map, eInval] at result

theorem mm_map_clean_iff : MapsCleanly mm addr len vmFlags ↔ MapHandled mm addr len := by
  by_cases user : UserAccess (roundDown addr pgSize) (mapStop addr len)
  · by_cases gap : ∀ vma ∈ mm.mmapList, ¬ vma.Has (roundDown addr pgSize)
    · have noneHas : ¬ ∃ vma ∈ mm.mmapList, vma.Has (roundDown addr pgSize) := by
        rintro ⟨vma, member, inside⟩
        exact gap vma member inside
      by_cases clear : addr + len < 2 ^ 64 ∧ ∀ vma ∈ mm.mmapList, ¬ vma.Meets (roundDown addr pgSize) (mapStop addr len)
      · exact iff_of_true (mm_map_inserts mm addr len vmFlags ordered cached user clear.1 clear.2) (.inr (.inr clear))
      · refine iff_of_false (mm_map_goes_on mm addr len vmFlags ordered cached user gap clear) ?_
        rintro (away | inside | both)
        · exact away user
        · exact noneHas inside
        · exact clear both
    · push Not at gap
      obtain ⟨vma, member, inside⟩ := gap
      exact iff_of_true (mm_map_rejects mm addr len vmFlags ordered cached user vma member inside) (.inr (.inl ⟨vma, member, inside⟩))
  · have asked : ¬ UserAccess (roundDown addr pgSize) (roundUp (addr + len) pgSize) := by
      by_cases small : addr + len < 2 ^ 64
      · exact map_stop_small addr len small ▸ user
      · exact not_user_overflow addr len (by omega)
    refine iff_of_true ?_ (.inl user)
    simp only [MapsCleanly]
    rw [if_neg fun both => asked both.1]
    exact ⟨mm, mm_map_not_user mm addr len vmFlags user, rfl, rfl⟩

end Map

def oneArea : Mm := ⟨[⟨0x300000, 0x301000, 0⟩], none, ⟨0, fun _ => none⟩, 1⟩

theorem one_area_ordered : Ordered oneArea.mmapList := ⟨by simp [oneArea], by simp [oneArea]⟩

theorem one_area_cached : oneArea.Cached := by simp [Mm.Cached, oneArea]

theorem mm_map_clean_below : MapsCleanly oneArea 0x200800 0x1000 3 ∧ MapsCleanly oneArea 0x300800 0x1000 3 :=
  ⟨(mm_map_clean_iff oneArea 0x200800 0x1000 3 one_area_ordered one_area_cached).mpr (.inr (.inr ⟨by decide, by decide⟩)),
    (mm_map_clean_iff oneArea 0x300800 0x1000 3 one_area_ordered one_area_cached).mpr (.inr (.inl ⟨⟨0x300000, 0x301000, 0⟩, by simp [oneArea], by decide⟩))⟩

-- A range that begins below the area and reaches into it gets to the assertion of
-- check_vma_overlap, and one whose sum overflows is put in as one page.
theorem mm_map_conflict_panics : mmMap oneArea 0x200000 0x200000 3 = .error .assertFailed ∧ ¬ MapsCleanly oneArea 0x200000 0x200000 3 ∧
    (mmMap oneArea 0x200800 0xffffffffffffff00 3).map (fun result => (result.1, result.2.mmapList)) =
      .ok (0, [⟨0x200000, 0x201000, 3⟩, ⟨0x300000, 0x301000, 0⟩]) ∧ ¬ MapsCleanly oneArea 0x200800 0xffffffffffffff00 3 := by
  refine ⟨rfl, ?_, by decide +kernel, ?_⟩
  · refine mm_map_goes_on oneArea 0x200000 0x200000 3 one_area_ordered one_area_cached (by decide) (by decide) ?_
    rintro ⟨_, free⟩
    exact free ⟨0x300000, 0x301000, 0⟩ (by simp [oneArea]) (by decide)
  · refine mm_map_goes_on oneArea 0x200800 0xffffffffffffff00 3 one_area_ordered one_area_cached (by decide) (by decide) ?_
    rintro ⟨small, _⟩
    exact absurd small (by decide)

end Ucore.Vmm
