import Mathlib.Data.Finset.Max
import Ucore.Sfs.Bitmap

set_option autoImplicit false

namespace Ucore.Sfs

open Ucore.Lib

-- The calls a user of the bitmap makes, and what it is told.
inductive BitmapCall where
  | alloc
  | free (index : Nat)
  | test (index : Nat)
deriving DecidableEq, Repr

inductive BitmapAnswer where
  | given (index : Nat)
  | refused (ret : Int)
  | freed
  | tested (free : Bool)
deriving DecidableEq, Repr

def bitmapCall (b : Bitmap) : BitmapCall → Except Fault (BitmapAnswer × Bitmap)
  | .alloc => do
      let (ret, index, b) ← bitmapAlloc b
      return (if ret = 0 then .given index else .refused ret, b)
  | .free index => do
      let b ← bitmapFree b index
      return (.freed, b)
  | .test index => do
      let free ← bitmapTest b index
      return (.tested free, b)

def bitmapCalls (b : Bitmap) : List BitmapCall → Except Fault (List BitmapAnswer × Bitmap)
  | [] => .ok ([], b)
  | call :: calls => do
      let (answer, b) ← bitmapCall b call
      let (answers, b) ← bitmapCalls b calls
      return (answer :: answers, b)

-- What the bitmap is for: the set of the indices that are free.
def serve (free : Finset Nat) : BitmapCall → BitmapAnswer × Finset Nat
  | .alloc =>
      if left : free.Nonempty then (.given (free.min' left), free.erase (free.min' left)) else (.refused eNoMem, free)
  | .free index => (.freed, insert index free)
  | .test index => (.tested (decide (index ∈ free)), free)

def serveAll (free : Finset Nat) : List BitmapCall → List BitmapAnswer × Finset Nat
  | [] => ([], free)
  | call :: calls =>
      let (answer, free) := serve free call
      let (answers, free) := serveAll free calls
      (answer :: answers, free)

-- Only an allocated index is freed, and only an index of the map is tested.
def Permitted (nbits : Nat) (free : Finset Nat) : BitmapCall → Prop
  | .alloc => True
  | .free index => index < nbits ∧ index ∉ free
  | .test index => index < nbits

instance (nbits : Nat) (free : Finset Nat) : (call : BitmapCall) → Decidable (Permitted nbits free call)
  | .alloc => .isTrue trivial
  | .free index => inferInstanceAs (Decidable (index < nbits ∧ index ∉ free))
  | .test index => inferInstanceAs (Decidable (index < nbits))

def AllPermitted (nbits : Nat) (free : Finset Nat) : List BitmapCall → Prop
  | [] => True
  | call :: calls => Permitted nbits free call ∧ AllPermitted nbits (serve free call).2 calls

instance (nbits : Nat) : (free : Finset Nat) → (calls : List BitmapCall) → Decidable (AllPermitted nbits free calls)
  | _, [] => .isTrue trivial
  | free, call :: calls =>
      have := instDecidableAllPermitted nbits (serve free call).2 calls
      inferInstanceAs (Decidable (Permitted nbits free call ∧ AllPermitted nbits (serve free call).2 calls))

structure Bitmap.Holds (b : Bitmap) (nbits : Nat) (free : Finset Nat) : Prop where
  size : b.nbits = nbits
  wide : nbits ≤ b.nwords * 32
  bits : ∀ j, j < b.nwords * 32 → b.bit j = decide (j ∈ free)
  inside : ∀ j, j ∈ free → j < nbits

theorem created_holds (nbits : Nat) (nonzero : nbits ≠ 0) (fits : nbits < 2 ^ 32) :
    ∃ b, bitmapCreate nbits = .ok b ∧ b.Holds nbits (Finset.range nbits) := by
  obtain ⟨b, created, size, words, bits⟩ := bitmap_create_spec nbits nonzero fits
  have wide : nbits ≤ b.nwords * 32 := by
    rw [words, roundUpDiv]
    omega
  refine ⟨b, created, size, wide, fun j inside => ?_, fun j member => Finset.mem_range.mp member⟩
  rw [bits j inside, decide_eq_decide, Finset.mem_range]

section Calls

variable {b : Bitmap} {nbits : Nat} {free : Finset Nat}

theorem alloc_serves (holds : b.Holds nbits free) :
    ∃ answer next, bitmapCall b .alloc = .ok (answer, next) ∧ answer = (serve free .alloc).1 ∧ next.Holds nbits (serve free .alloc).2 := by
  obtain ⟨size, wide, bits, inside⟩ := holds
  cases bitmap_alloc_spec b with
  | inl full =>
      obtain ⟨refused, clear⟩ := full
      have empty : ¬ free.Nonempty := by
        intro left
        obtain ⟨j, member⟩ := left
        have off := clear j (by have := inside j member; omega)
        rw [bits j (by have := inside j member; omega), decide_eq_true member] at off
        cases off
      refine ⟨.refused eNoMem, b, ?_, ?_, ?_⟩
      · rw [bitmapCall, refused]
        rfl
      · simp only [serve, dif_neg empty]
      · simp only [serve, dif_neg empty]
        exact ⟨size, wide, bits, inside⟩
  | inr served =>
      obtain ⟨index, taken, allocated, bound, on, before, sameBits, sameWords, after⟩ := served
      have member : index ∈ free := by
        rw [bits index bound] at on
        exact of_decide_eq_true on
      have left : free.Nonempty := ⟨index, member⟩
      have least : free.min' left = index := by
        refine le_antisymm (Finset.min'_le free index member) (Finset.le_min' free left index fun j other => ?_)
        by_contra less
        have off := before j (by omega)
        rw [bits j (by have := inside j other; omega), decide_eq_true other] at off
        cases off
      refine ⟨.given index, taken, ?_, ?_, ?_⟩
      · rw [bitmapCall, allocated]
        rfl
      · simp only [serve, dif_pos left, least]
      · simp only [serve, dif_pos left, least]
        refine ⟨sameBits.trans size, by rw [sameWords]; exact wide, fun j below => ?_, fun j other => inside j (Finset.mem_of_mem_erase other)⟩
        rw [sameWords] at below
        rw [after j, bits j below, Bool.eq_iff_iff]
        simp [Finset.mem_erase, and_comm]

theorem free_serves (index : Nat) (holds : b.Holds nbits free) (allocated : index < nbits ∧ index ∉ free) :
    ∃ next, bitmapCall b (.free index) = .ok (.freed, next) ∧ next.Holds nbits (insert index free) := by
  obtain ⟨size, wide, bits, inside⟩ := holds
  obtain ⟨bound, notFree⟩ := allocated
  have used : b.bit index = false := by
    rw [bits index (by omega)]
    exact decide_eq_false notFree
  obtain ⟨next, freed, sameBits, sameWords, after⟩ := bitmap_free_spec b index (by omega) used
  refine ⟨next, by rw [bitmapCall, freed]; rfl, sameBits.trans size, by rw [sameWords]; exact wide, fun j below => ?_, fun j member => ?_⟩
  · rw [sameWords] at below
    rw [after j, bits j below, Bool.eq_iff_iff]
    simp [Finset.mem_insert, or_comm]
  · cases Finset.mem_insert.mp member with
    | inl same => omega
    | inr old => exact inside j old

theorem test_serves (index : Nat) (holds : b.Holds nbits free) (bound : index < nbits) :
    bitmapCall b (.test index) = .ok (.tested (decide (index ∈ free)), b) := by
  rw [bitmapCall, bitmap_test_spec b index (by rw [holds.size]; exact bound), holds.bits index (by have := holds.wide; omega)]
  rfl

theorem call_serves (call : BitmapCall) (holds : b.Holds nbits free) (permitted : Permitted nbits free call) :
    ∃ next, bitmapCall b call = .ok ((serve free call).1, next) ∧ next.Holds nbits (serve free call).2 := by
  cases call with
  | alloc =>
      obtain ⟨answer, next, called, same, after⟩ := alloc_serves holds
      exact ⟨next, by rw [called, same], after⟩
  | free index => exact free_serves index holds permitted
  | test index => exact ⟨b, test_serves index holds permitted, holds⟩

end Calls

theorem calls_serve (nbits : Nat) (calls : List BitmapCall) (b : Bitmap) (free : Finset Nat) (holds : b.Holds nbits free)
    (permitted : AllPermitted nbits free calls) :
    ∃ last, bitmapCalls b calls = .ok ((serveAll free calls).1, last) ∧ last.Holds nbits (serveAll free calls).2 := by
  induction calls generalizing b free with
  | nil => exact ⟨b, rfl, holds⟩
  | cons call calls ih =>
      obtain ⟨now, later⟩ := permitted
      obtain ⟨next, called, after⟩ := call_serves call holds now
      obtain ⟨last, rest, final⟩ := ih next _ after later
      refine ⟨last, ?_, final⟩
      simp only [bitmapCalls, called, ok_bind, rest]
      rfl

theorem bitmap_implements_set (nbits : Nat) (calls : List BitmapCall) (nonzero : 1 ≤ nbits) (fits : nbits < 2 ^ 32)
    (permitted : AllPermitted nbits (Finset.range nbits) calls) :
    ∃ b, bitmapCreate nbits = .ok b ∧
      ∃ last, bitmapCalls b calls = .ok ((serveAll (Finset.range nbits) calls).1, last) ∧
        last.Holds nbits (serveAll (Finset.range nbits) calls).2 := by
  obtain ⟨b, created, holds⟩ := created_holds nbits (by omega) fits
  exact ⟨b, created, calls_serve nbits calls b (Finset.range nbits) holds permitted⟩

-- The third index of a bitmap of three is given, tested and freed again.
theorem bitmap_implements_set_three :
    ∃ b, bitmapCreate 3 = .ok b ∧
      ∃ last, bitmapCalls b [.alloc, .alloc, .alloc, .alloc, .test 2, .free 1, .alloc] =
        .ok ((serveAll (Finset.range 3) [.alloc, .alloc, .alloc, .alloc, .test 2, .free 1, .alloc]).1, last) ∧
        last.Holds 3 (serveAll (Finset.range 3) [.alloc, .alloc, .alloc, .alloc, .test 2, .free 1, .alloc]).2 :=
  bitmap_implements_set 3 [.alloc, .alloc, .alloc, .alloc, .test 2, .free 1, .alloc] (by decide) (by decide)
    (by decide)

end Ucore.Sfs
