import Ucore.Vmm.UserCheck

set_option autoImplicit false

namespace Ucore.Vmm

open Ucore.Lib

def strnlen (bytes : Bytes) (src : Nat) : Nat → Nat
  | 0 => 0
  | len + 1 => if bytes src = 0 then 0 else strnlen bytes (src + 1) len + 1

-- What copy_string does to the memory of the user and to its buffer, in order: the
-- ranges that a check let through, the bytes read and the places written.
inductive Touch where
  | check (addr len : Nat)
  | read (addr len : Nat)
  | write (offset len : Nat)
deriving DecidableEq, Repr

def pageBytes : UInt64 := 4096

-- filled is how far dst has come in the buffer.
def copyStringLoop (user : Bytes) (mm : Option Mm) (dst : Bytes) (filled : Nat) (src maxn part : UInt64) :
    Nat → Except Fault (Bool × Option Mm × Bytes × List Touch)
  | 0 => .error .outOfFuel
  | fuel + 1 => do
      let part := if part > maxn then maxn else part
      let (allowed, mm) ← userMemCheck mm src part false
      if !allowed then return (false, mm, dst, [])
      else
        let alen := strnlen user src.toNat part.toNat
        let scanned := [.check src.toNat part.toNat, .read src.toNat (min (alen + 1) part.toNat)]
        if alen < part.toNat then
          return (true, mm, memcpy dst filled (user.from src.toNat) (alen + 1),
            scanned ++ [.read src.toNat (alen + 1), .write filled (alen + 1)])
        else if part = maxn then return (false, mm, dst, scanned)
        else
          let (result, mm, last, touches) ← copyStringLoop user mm (memcpy dst filled (user.from src.toNat) part.toNat) (filled + part.toNat)
            (src + part) (maxn - part) pageBytes fuel
          return (result, mm, last, scanned ++ [.read src.toNat part.toNat, .write filled part.toNat] ++ touches)

def copyString (user : Bytes) (mm : Option Mm) (dst : Bytes) (src maxn : UInt64) : Except Fault (Bool × Option Mm × Bytes × List Touch) :=
  copyStringLoop user mm dst 0 src maxn ((src + pageBytes) / pageBytes * pageBytes - src) (maxn.toNat / pgSize + 2)

theorem strnlen_spec (bytes : Bytes) (src len : Nat) : strnlen bytes src len ≤ len ∧ (∀ j, j < strnlen bytes src len → bytes (src + j) ≠ 0) ∧
    (strnlen bytes src len < len → bytes (src + strnlen bytes src len) = 0) := by
  induction len generalizing src with
  | zero => simp [strnlen]
  | succ len ih =>
      rw [strnlen]
      by_cases zero : bytes src = 0
      · rw [if_pos zero]
        exact ⟨Nat.zero_le _, fun j below => by omega, fun _ => zero⟩
      · rw [if_neg zero]
        obtain ⟨short, before, at'⟩ := ih (src + 1)
        refine ⟨by omega, fun j below => ?_, fun inside => ?_⟩
        · cases j with
          | zero => exact zero
          | succ j =>
              have later := before j (by omega)
              rwa [Nat.add_assoc, Nat.add_comm 1 j] at later
        · have found := at' (by omega)
          rwa [Nat.add_assoc, Nat.add_comm 1] at found

section Areas

variable (list : List Vma) (areas : Areas list)

include areas

theorem allowed_user (va : Nat) (allowed : ByteAllowed list false va) : userBase ≤ va ∧ va < userTop := by
  obtain ⟨⟨vma, listed, has, _⟩, _⟩ := allowed
  obtain ⟨_, _, low, _, high⟩ := areas.fits vma listed
  exact ⟨Nat.le_trans low has.1, Nat.lt_of_lt_of_le has.2 high⟩

-- The areas are made of pages, so a page is readable or not.
theorem allowed_page (va other : Nat) (page : va / pgSize = other / pgSize) (allowed : ByteAllowed list false va) :
    ByteAllowed list false other := by
  obtain ⟨⟨vma, listed, has, given⟩, _⟩ := allowed
  obtain ⟨alignedStart, alignedStop, _, _, _⟩ := areas.fits vma listed
  refine ⟨⟨vma, listed, ?_, given⟩, by simp⟩
  simp only [Vma.Has, pgSize] at *
  omega

theorem law_in_page (src part : UInt64) (positive : 0 < part.toNat) (page : src.toNat % pgSize + part.toNat ≤ pgSize) :
    AccessLaw list src part false ↔ ByteAllowed list false src.toNat := by
  constructor
  · exact fun law => law.bytes src.toNat (Nat.le_refl _) (by omega)
  · intro allowed
    obtain ⟨low, high⟩ := allowed_user list areas src.toNat allowed
    refine ⟨⟨low, by omega, ?_⟩, fun va lower upper => allowed_page list areas src.toNat va ?_ allowed⟩
    · simp only [userTop, pgSize] at *
      omega
    · simp only [pgSize] at *
      omega

end Areas

-- A string that ends below maxn and can be read up to its end.
def ReadableString (list : List Vma) (user : Bytes) (src maxn : Nat) : Prop :=
  ∃ i, i < maxn ∧ user (src + i) = 0 ∧ ∀ j, j ≤ i → ByteAllowed list false (src + j)

-- Each byte that is read is in a range that an earlier check let through.
def ReadsChecked (checked : List (Nat × Nat)) : List Touch → Prop
  | [] => True
  | .check addr len :: rest => ReadsChecked ((addr, len) :: checked) rest
  | .read addr len :: rest => (∀ va, addr ≤ va → va < addr + len → ∃ range ∈ checked, range.1 ≤ va ∧ va < range.1 + range.2) ∧
      ReadsChecked checked rest
  | .write _ _ :: rest => ReadsChecked checked rest

structure Copies (list : List Vma) (user : Bytes) (src maxn filled : Nat) (dst last : Bytes) (result : Bool) (touches : List Touch) : Prop where
  answer : result = true ↔ ReadableString list user src maxn
  string : result = true → ∃ i, i < maxn ∧ user (src + i) = 0 ∧ (∀ j, j < i → user (src + j) ≠ 0) ∧ ∀ j, j ≤ i → last (filled + j) = user (src + j)
  frame : ∀ k, k < filled ∨ filled + maxn ≤ k → last k = dst k
  reads : ∀ checked, ReadsChecked checked touches
  writes : ∀ offset len, Touch.write offset len ∈ touches → filled ≤ offset ∧ offset + len ≤ filled + maxn

theorem from_at (bytes : Bytes) (dst : Bytes) (filled src len j : Nat) (inside : j < len) :
    memcpy dst filled (bytes.from src) len (filled + j) = bytes (src + j) := by
  rw [memcpy_inside dst (bytes.from src) filled len (filled + j) (Nat.le_add_right _ _) (by omega), Nat.add_sub_cancel_left]
  rfl

-- The chunk ends the string, or it ends the budget, or the loop goes on.
section Chunk

variable (list : List Vma) (areas : Areas list) (user dst : Bytes) (src maxn part filled : Nat) (small : part ≤ maxn)

theorem copies_refused (first : ¬ ByteAllowed list false src ∨ maxn = 0) : Copies list user src maxn filled dst dst false [] := by
  refine ⟨iff_of_false (by simp) ?_, by simp, fun _ _ => rfl, fun _ => trivial, by simp⟩
  rintro ⟨i, below, _, allowed⟩
  rcases first with refused | empty
  · exact refused (allowed 0 (Nat.zero_le i))
  · omega

theorem copies_budget (scanned : strnlen user src part = part) (spent : part = maxn) :
    Copies list user src maxn filled dst dst false [.check src part, .read src (min (strnlen user src part + 1) part)] := by
  obtain ⟨_, before, _⟩ := strnlen_spec user src part
  rw [scanned] at before ⊢
  refine ⟨iff_of_false (by simp) ?_, by simp, fun _ _ => rfl, fun checked => ?_, by simp⟩
  · rintro ⟨i, below, zero, _⟩
    exact before i (by omega) zero
  · refine ⟨fun va low high => ⟨(src, part), by simp, low, ?_⟩, trivial⟩
    simp only at high ⊢
    omega

include small

theorem copies_end (allowed : ∀ j, j < part → ByteAllowed list false (src + j)) (ends : strnlen user src part < part) :
    Copies list user src maxn filled dst (memcpy dst filled (user.from src) (strnlen user src part + 1)) true
      [.check src part, .read src (min (strnlen user src part + 1) part), .read src (strnlen user src part + 1),
        .write filled (strnlen user src part + 1)] := by
  obtain ⟨_, before, at'⟩ := strnlen_spec user src part
  refine ⟨iff_of_true rfl ⟨_, by omega, at' ends, fun j within => allowed j (by omega)⟩, fun _ => ?_, fun k away => ?_, fun checked => ?_,
    fun offset len inside => ?_⟩
  · exact ⟨_, by omega, at' ends, before, fun j within => from_at user dst filled src _ j (by omega)⟩
  · exact memcpy_outside dst _ filled _ k (by omega)
  · refine ⟨fun va low high => ⟨(src, part), by simp, low, ?_⟩, fun va low high => ⟨(src, part), by simp, low, ?_⟩, trivial⟩
    · simp only at high ⊢
      omega
    · simp only at high ⊢
      omega
  · obtain ⟨rfl, rfl⟩ := by simpa using inside
    omega

theorem copies_more (last : Bytes) (result : Bool) (touches : List Touch) (allowed : ∀ j, j < part → ByteAllowed list false (src + j))
    (scanned : strnlen user src part = part)
    (rest : Copies list user (src + part) (maxn - part) (filled + part) (memcpy dst filled (user.from src) part) last result touches) :
    Copies list user src maxn filled dst last result
      ([.check src part, .read src (min (strnlen user src part + 1) part)] ++ [.read src part, .write filled part] ++ touches) := by
  obtain ⟨_, before, _⟩ := strnlen_spec user src part
  rw [scanned] at before ⊢
  refine ⟨rest.answer.trans ⟨?_, ?_⟩, fun answered => ?_, fun k away => ?_, fun checked => ?_, fun offset len inside => ?_⟩
  · rintro ⟨i, below, zero, all⟩
    refine ⟨part + i, by omega, by rwa [← Nat.add_assoc], fun j within => ?_⟩
    by_cases early : j < part
    · exact allowed j early
    · have later := all (j - part) (by omega)
      rwa [show src + part + (j - part) = src + j by omega] at later
  · rintro ⟨i, below, zero, all⟩
    have late : part ≤ i := by
      by_contra early
      exact before i (by omega) zero
    refine ⟨i - part, by omega, by rwa [show src + part + (i - part) = src + i by omega], fun j within => ?_⟩
    have later := all (part + j) (by omega)
    rwa [← Nat.add_assoc] at later
  · obtain ⟨i, below, zero, earlier, same⟩ := rest.string answered
    refine ⟨part + i, by omega, by rwa [← Nat.add_assoc], fun j within => ?_, fun j within => ?_⟩
    · by_cases early : j < part
      · exact before j early
      · have later := earlier (j - part) (by omega)
        rwa [show src + part + (j - part) = src + j by omega] at later
    · by_cases early : j < part
      · rw [rest.frame (filled + j) (by omega)]
        exact from_at user dst filled src part j early
      · have later := same (j - part) (by omega)
        rwa [show filled + part + (j - part) = filled + j by omega, show src + part + (j - part) = src + j by omega] at later
  · rw [rest.frame k (by omega)]
    exact memcpy_outside dst _ filled part k (by omega)
  · refine ⟨fun va low high => ⟨(src, part), by simp, low, ?_⟩, fun va low high => ⟨(src, part), by simp, low, high⟩, rest.reads _⟩
    simp only at high ⊢
    omega
  · simp only [List.cons_append, List.nil_append, List.mem_cons, reduceCtorEq, Touch.write.injEq, false_or] at inside
    rcases inside with ⟨rfl, rfl⟩ | later
    · omega
    · have bounds := rest.writes offset len later
      omega

end Chunk

theorem copy_string_loop_spec (list : List Vma) (areas : Areas list) (user : Bytes) (mm : Mm) (same : mm.mmapList = list) (cached : mm.Cached)
    (dst : Bytes) (filled : Nat) (src maxn part : UInt64) (fuel : Nat) (toPage : part.toNat = pgSize - src.toNat % pgSize)
    (enough : maxn.toNat + src.toNat % pgSize < fuel * pgSize) :
    ∃ result mm' last touches, copyStringLoop user (some mm) dst filled src maxn part fuel = .ok (result, some mm', last, touches) ∧
      Copies list user src.toNat maxn.toNat filled dst last result touches := by
  induction fuel generalizing mm dst filled src maxn part with
  | zero => omega
  | succ fuel ih =>
      have ordered := areas_ordered list areas
      rw [copyStringLoop]
      generalize chunk : (if part > maxn then maxn else part) = piece
      have pieceNat : piece.toNat = min part.toNat maxn.toNat := by
        rw [← chunk]
        split
        · rename_i big
          have order := UInt64.lt_iff_toNat_lt.mp big
          omega
        · rename_i fits
          have order : ¬ maxn.toNat < part.toNat := fun big => fits (UInt64.lt_iff_toNat_lt.mpr big)
          omega
      have inPage : src.toNat % pgSize < pgSize := Nat.mod_lt _ (by decide)
      obtain ⟨allowed, mmF, checked, sameF, cachedF, _, law⟩ := user_mem_check_spec mm (same ▸ ordered) cached src piece false
      rw [same] at law sameF
      simp only [checked, ok_bind]
      by_cases empty : maxn.toNat = 0
      · have refused : allowed = false := by
          by_contra passed
          have range := (law.mp (by simpa using passed)).user
          have order := range.2.1
          omega
        rw [refused]
        exact ⟨false, mmF, dst, [], rfl, copies_refused list user dst src.toNat maxn.toNat filled (.inr empty)⟩
      · have page := law_in_page list areas src piece (by omega) (by omega)
        cases allowed with
        | false =>
            refine ⟨false, mmF, dst, [], rfl, copies_refused list user dst src.toNat maxn.toNat filled (.inl fun first => ?_)⟩
            have passed := law.mpr (page.mpr first)
            simp at passed
        | true =>
            have bytes := (law.mp rfl).bytes
            have within : ∀ j, j < piece.toNat → ByteAllowed list false (src.toNat + j) := fun j below => bytes _ (by omega) (by omega)
            have top := (law.mp rfl).user.2.2
            simp only [Bool.not_true, Bool.false_eq_true, if_false]
            by_cases ends : strnlen user src.toNat piece.toNat < piece.toNat
            · rw [if_pos ends]
              exact ⟨true, mmF, _, _, rfl, copies_end list user dst src.toNat maxn.toNat piece.toNat filled (by omega) within ends⟩
            · have scanned : strnlen user src.toNat piece.toNat = piece.toNat := by
                have short := (strnlen_spec user src.toNat piece.toNat).1
                omega
              rw [if_neg ends]
              by_cases spent : piece = maxn
              · rw [if_pos spent]
                exact ⟨false, mmF, dst, _, rfl, copies_budget list user dst src.toNat maxn.toNat piece.toNat filled scanned
                  (congrArg UInt64.toNat spent)⟩
              · rw [if_neg spent]
                have more : piece.toNat < maxn.toNat := by
                  have differ : piece.toNat ≠ maxn.toNat := fun equal => spent (UInt64.toNat.inj equal)
                  omega
                have next : (src + piece).toNat = src.toNat + piece.toNat := by
                  rw [UInt64.toNat_add, Nat.mod_eq_of_lt]
                  simp only [userTop] at top
                  omega
                have left : (maxn - piece).toNat = maxn.toNat - piece.toNat := UInt64.toNat_sub_of_le _ _ (UInt64.le_iff_toNat_le.mpr (by omega))
                have aligned : (src.toNat + piece.toNat) % pgSize = 0 := by
                  simp only [pgSize] at *
                  omega
                have whole : pageBytes.toNat = pgSize := rfl
                obtain ⟨result, mm', last, touches, ran, rest⟩ := ih mmF sameF cachedF
                  (memcpy dst filled (user.from src.toNat) piece.toNat) (filled + piece.toNat) (src + piece) (maxn - piece) pageBytes
                  (by rw [next, aligned, whole, Nat.sub_zero]) (by
                    rw [next, aligned, left]
                    simp only [pgSize] at *
                    omega)
                rw [next, left] at rest
                refine ⟨result, mm', last, _, by rw [ran]; rfl, ?_⟩
                exact copies_more list user dst src.toNat maxn.toNat piece.toNat filled (by omega) last result touches within scanned rest

-- The first chunk goes up to the end of the page of src.
theorem first_part (src : UInt64) : ((src + pageBytes) / pageBytes * pageBytes - src).toNat = pgSize - src.toNat % pgSize := by
  have bound := src.toNat_lt
  have whole : pageBytes.toNat = pgSize := rfl
  rw [UInt64.toNat_sub, UInt64.toNat_mul, UInt64.toNat_div, UInt64.toNat_add, whole]
  simp only [pgSize]
  omega

theorem copy_string_copies (mm : Mm) (areas : Areas mm.mmapList) (cached : mm.Cached) (user dst : Bytes) (src maxn : UInt64) :
    ∃ result mm' last touches, copyString user (some mm) dst src maxn = .ok (result, some mm', last, touches) ∧
      Copies mm.mmapList user src.toNat maxn.toNat 0 dst last result touches := by
  refine copy_string_loop_spec mm.mmapList areas user mm rfl cached dst 0 src maxn _ _ (first_part src) ?_
  simp only [pgSize]
  omega

theorem three_user_areas_fit : Areas threeUserAreas.mmapList := ⟨three_user_areas_ordered.apart, by simp [threeUserAreas, Vma.Fits, UserAccess, pgSize, userBase, userTop]⟩

-- A string over the end of a page, and of an area.
theorem copy_string_across : ∃ result mm' last touches,
    copyString (fun va => if va < 0x802004 then 65 else 0) (some threeUserAreas) zeroBytes 0x801ff0 0x40 = .ok (result, some mm', last, touches) ∧
      Copies threeUserAreas.mmapList (fun va => if va < 0x802004 then 65 else 0) 0x801ff0 0x40 0 zeroBytes last result touches :=
  copy_string_copies threeUserAreas three_user_areas_fit three_user_areas_cached (fun va => if va < 0x802004 then 65 else 0) zeroBytes
    0x801ff0 0x40

end Ucore.Vmm
