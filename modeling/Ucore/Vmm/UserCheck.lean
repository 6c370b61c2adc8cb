import Ucore.Vmm.VmaList

set_option autoImplicit false

namespace Ucore.Vmm

open Ucore.Lib

def vmRead : Nat := 1
def vmWrite : Nat := 2
def vmExec : Nat := 4
def vmStack : Nat := 8

def kernBase : Nat := 0xffffffffc0200000
def kernTop : Nat := kernBase + 0x7e00000

def KernAccess (start stop : Nat) : Prop := kernBase ≤ start ∧ start < stop ∧ stop ≤ kernTop

instance (start stop : Nat) : Decidable (KernAccess start stop) :=
  inferInstanceAs (Decidable (kernBase ≤ start ∧ start < stop ∧ stop ≤ kernTop))

def askedFlag (write : Bool) : Nat := if write then vmWrite else vmRead

-- The hops from area to area. The fuel is one round for each byte and one to see the end.
def checkLoop (mm : Mm) (stop : Nat) (write : Bool) (start : Nat) : Nat → Except Fault (Bool × Mm)
  | 0 => .error .outOfFuel
  | fuel + 1 =>
      if start < stop then
        match findVma mm start with
        | (none, mm) => .ok (false, mm)
        | (some vma, mm) =>
            if start < vma.vmStart then .ok (false, mm)
            else if vma.vmFlags &&& askedFlag write = 0 then .ok (false, mm)
            else if write ∧ vma.vmFlags &&& vmStack ≠ 0 ∧ start < vma.vmStart + pgSize then .ok (false, mm)
            else checkLoop mm stop write vma.vmEnd fuel
      else .ok (true, mm)

-- none is the NULL of a kernel thread. The sum of addr and len wraps around.
def userMemCheck (mm : Option Mm) (addr len : UInt64) (write : Bool) : Except Fault (Bool × Option Mm) :=
  match mm with
  | some mm =>
      if ¬ UserAccess addr.toNat (addr + len).toNat then .ok (false, some mm)
      else do
        let (allowed, mm) ← checkLoop mm (addr + len).toNat write addr.toNat ((addr + len).toNat - addr.toNat + 1)
        return (allowed, some mm)
  | none => .ok (decide (KernAccess addr.toNat (addr + len).toNat), none)

-- An area gives the access that is asked for, and for a store the byte is not in the
-- first page of a stack.
def Vma.Gives (vma : Vma) (write : Bool) (va : Nat) : Prop :=
  vma.Has va ∧ vma.vmFlags &&& askedFlag write ≠ 0

def Vma.Guards (vma : Vma) (va : Nat) : Prop := vma.vmFlags &&& vmStack ≠ 0 ∧ vma.Has va ∧ va < vma.vmStart + pgSize

def ByteAllowed (list : List Vma) (write : Bool) (va : Nat) : Prop :=
  (∃ vma ∈ list, vma.Gives write va) ∧ (write = true → ∀ vma ∈ list, ¬ vma.Guards va)

-- The access law: a range of the user that is not empty and does not wrap around,
-- with every byte allowed.
structure AccessLaw (list : List Vma) (addr len : UInt64) (write : Bool) : Prop where
  user : UserAccess addr.toNat (addr.toNat + len.toNat)
  bytes : ∀ va, addr.toNat ≤ va → va < addr.toNat + len.toNat → ByteAllowed list write va

section Check

variable (list : List Vma) (ordered : Ordered list) (write : Bool)

include ordered

-- Inside one area the first byte speaks for those behind it.
theorem allowed_in_area (vma : Vma) (listed : vma ∈ list) (va : Nat) (has : vma.Has va) : ByteAllowed list write va ↔
    vma.vmFlags &&& askedFlag write ≠ 0 ∧ ¬ (write = true ∧ vma.vmFlags &&& vmStack ≠ 0 ∧ va < vma.vmStart + pgSize) := by
  constructor
  · rintro ⟨⟨other, member, inside, given⟩, clear⟩
    obtain rfl := ordered_unique list ordered va other vma member listed inside has
    refine ⟨given, fun guard => ?_⟩
    exact clear guard.1 other listed ⟨guard.2.1, has, guard.2.2⟩
  · rintro ⟨given, clear⟩
    refine ⟨⟨vma, listed, has, given⟩, fun stores other member guard => ?_⟩
    obtain ⟨stack, inside, low⟩ := guard
    obtain rfl := ordered_unique list ordered va other vma member listed inside has
    exact clear ⟨stores, stack, low⟩

theorem check_loop_spec (mm : Mm) (same : mm.mmapList = list) (cached : mm.Cached) (stop start fuel : Nat) (enough : stop - start < fuel) :
    ∃ allowed mm', checkLoop mm stop write start fuel = .ok (allowed, mm') ∧ mm'.mmapList = list ∧ mm'.Cached ∧
      mm'.pgdir = mm.pgdir ∧ (allowed = true ↔ ∀ va, start ≤ va → va < stop → ByteAllowed list write va) := by
  have orderedMm : Ordered mm.mmapList := same ▸ ordered
  induction fuel generalizing mm start with
  | zero => omega
  | succ fuel ih =>
      rw [checkLoop]
      by_cases before : start < stop
      · rw [if_pos before]
        have frame := (find_vma_frame mm start).1.trans same
        have kept := find_vma_cached mm start orderedMm cached
        have root : (findVma mm start).2.pgdir = mm.pgdir := by
          rw [find_vma_snd]
          split <;> rfl
        cases result : findVma mm start with
        | mk found mmF =>
            rw [result] at frame kept root
            cases found with
            | none =>
                refine ⟨false, mmF, rfl, frame, kept, root, ?_⟩
                have missed := (find_vma_none mm start orderedMm cached).mp (by rw [result])
                rw [same] at missed
                refine iff_of_false (by simp) fun all => ?_
                obtain ⟨⟨vma, member, has, _⟩, _⟩ := all start (Nat.le_refl _) before
                exact missed vma member has
            | some vma =>
                obtain ⟨listed, has⟩ := (find_vma_some mm start orderedMm cached vma).mp (by rw [result])
                rw [same] at listed
                have law := allowed_in_area list ordered write vma listed
                have first := law start has
                have inside : ¬ start < vma.vmStart := Nat.not_lt.mpr has.1
                simp only [if_neg inside]
                by_cases flag : vma.vmFlags &&& askedFlag write = 0
                · rw [if_pos flag]
                  refine ⟨false, mmF, rfl, frame, kept, root, iff_of_false (by simp) fun all => ?_⟩
                  exact (first.mp (all start (Nat.le_refl _) before)).1 flag
                · rw [if_neg flag]
                  by_cases guard : write = true ∧ vma.vmFlags &&& vmStack ≠ 0 ∧ start < vma.vmStart + pgSize
                  · rw [if_pos guard]
                    refine ⟨false, mmF, rfl, frame, kept, root, iff_of_false (by simp) fun all => ?_⟩
                    exact (first.mp (all start (Nat.le_refl _) before)).2 guard
                  · rw [if_neg guard]
                    have hop := has.2
                    obtain ⟨allowed, mm', ran, list', cached', root', spec⟩ := ih mmF frame kept vma.vmEnd (by omega) (frame ▸ ordered)
                    refine ⟨allowed, mm', ran, list', cached', root'.trans root, spec.trans ⟨fun later va low high => ?_, fun all va low high => ?_⟩⟩
                    · by_cases beyond : vma.vmEnd ≤ va
                      · exact later va beyond high
                      · have here : vma.Has va := ⟨by have := has.1; omega, by omega⟩
                        refine (law va here).mpr ⟨flag, fun both => guard ⟨both.1, both.2.1, by omega⟩⟩
                    · exact all va (by omega) high
      · rw [if_neg before]
        exact ⟨true, mm, rfl, same, cached, rfl, iff_of_true rfl fun va low high => by omega⟩

end Check

-- The sum wraps around exactly when the range leaves user space.
theorem user_access_sum (addr len : UInt64) :
    UserAccess addr.toNat (addr + len).toNat ↔ UserAccess addr.toNat (addr.toNat + len.toNat) := by
  have sum : (addr + len).toNat = (addr.toNat + len.toNat) % 2 ^ 64 := UInt64.toNat_add addr len
  have boundAddr := addr.toNat_lt
  have boundLen := len.toNat_lt
  rw [sum]
  simp only [UserAccess, userBase, userTop]
  omega

theorem user_mem_check_spec (mm : Mm) (ordered : Ordered mm.mmapList) (cached : mm.Cached) (addr len : UInt64) (write : Bool) :
    ∃ allowed mm', userMemCheck (some mm) addr len write = .ok (allowed, some mm') ∧ mm'.mmapList = mm.mmapList ∧ mm'.Cached ∧
      mm'.pgdir = mm.pgdir ∧ (allowed = true ↔ AccessLaw mm.mmapList addr len write) := by
  rw [userMemCheck]
  by_cases user : UserAccess addr.toNat (addr + len).toNat
  · have asked := (user_access_sum addr len).mp user
    have sum : (addr + len).toNat = addr.toNat + len.toNat := by
      have whole : (addr + len).toNat = (addr.toNat + len.toNat) % 2 ^ 64 := UInt64.toNat_add addr len
      rw [whole, Nat.mod_eq_of_lt]
      have top := asked.2.2
      simp only [userTop] at top
      omega
    obtain ⟨allowed, mm', ran, same, kept, root, spec⟩ := check_loop_spec mm.mmapList ordered write mm rfl cached (addr + len).toNat
      addr.toNat ((addr + len).toNat - addr.toNat + 1) (by omega)
    refine ⟨allowed, mm', by simp only [user, not_true_eq_false, if_false, ran, ok_bind, pure_ok], same, kept, root, spec.trans ?_⟩
    rw [sum]
    exact ⟨fun bytes => ⟨asked, bytes⟩, fun law => law.bytes⟩
  · refine ⟨false, mm, by simp only [user, not_false_eq_true, if_true], rfl, cached, rfl, iff_of_false (by simp) fun law => ?_⟩
    exact user ((user_access_sum addr len).mpr law.user)

theorem user_mem_check_iff (mm : Mm) (ordered : Ordered mm.mmapList) (cached : mm.Cached) (addr len : UInt64) (write : Bool) :
    ∃ allowed mm', userMemCheck (some mm) addr len write = .ok (allowed, some mm') ∧ mm'.mmapList = mm.mmapList ∧
      (allowed = true ↔ AccessLaw mm.mmapList addr len write) := by
  obtain ⟨allowed, mm', ran, same, _, _, spec⟩ := user_mem_check_spec mm ordered cached addr len write
  exact ⟨allowed, mm', ran, same, spec⟩

-- Two areas side by side and the stack, with the cache on the second.
def threeUserAreas : Mm :=
  ⟨[⟨0x800000, 0x802000, vmRead⟩, ⟨0x802000, 0x803000, vmRead ||| vmWrite⟩, ⟨0x7ff00000, 0x80000000, vmRead ||| vmWrite ||| vmStack⟩],
    some ⟨0x802000, 0x803000, vmRead ||| vmWrite⟩, ⟨0, fun _ => none⟩, 3⟩

theorem three_user_areas_ordered : Ordered threeUserAreas.mmapList := ⟨by simp [threeUserAreas], by simp [threeUserAreas]⟩

theorem three_user_areas_cached : threeUserAreas.Cached := by simp [Mm.Cached, threeUserAreas]

theorem user_mem_check_across : ∃ allowed mm', userMemCheck (some threeUserAreas) 0x801ff0 0x20 false = .ok (allowed, some mm') ∧
    mm'.mmapList = threeUserAreas.mmapList ∧ (allowed = true ↔ AccessLaw threeUserAreas.mmapList 0x801ff0 0x20 false) :=
  user_mem_check_iff threeUserAreas three_user_areas_ordered three_user_areas_cached 0x801ff0 0x20 false

example : (userMemCheck (some threeUserAreas) 0x801ff0 0x20 false).map Prod.fst = .ok true ∧
    (userMemCheck (some threeUserAreas) 0x801ff0 0x20 true).map Prod.fst = .ok false ∧
    (userMemCheck (some threeUserAreas) 0x7ff00fff 0x10 true).map Prod.fst = .ok false ∧
    (userMemCheck (some threeUserAreas) 0x7ff01000 0x10 true).map Prod.fst = .ok true := by decide +kernel

end Ucore.Vmm
