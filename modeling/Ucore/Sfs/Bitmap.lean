import Mathlib.Logic.Function.Basic
import Ucore.Lib.Checked

set_option autoImplicit false

namespace Ucore.Sfs

open Ucore.Lib

-- The two stops of sfs_bmap_get_nolock and sfs_bmap_load_nolock that a caller's
-- index can reach are told apart from the other assertions.
inductive Fault where
  | assertFailed
  | indexOutOfRange
  | indexPastBlocks
  | outOfFuel
  | unknownType
deriving DecidableEq, Repr

def eInval : Int := -3
def eNoMem : Int := -4

structure Bitmap where
  nbits : Nat
  nwords : Nat
  map : Nat → BitVec 32

def wordBits : Nat := 32

namespace Bitmap

def bit (b : Bitmap) (index : Nat) : Bool := (b.map (index / wordBits)).getLsbD (index % wordBits)

def setWord (b : Bitmap) (ix : Nat) (word : BitVec 32) : Bitmap := { b with map := Function.update b.map ix word }

end Bitmap

def mask (offset : Nat) : BitVec 32 := 1#32 <<< offset

def roundUpDiv (a n : Nat) : Nat := (a + n - 1) / n

def clearLeftover (word : BitVec 32) (overbits : Nat) : Nat → BitVec 32
  | 0 => word
  | count + 1 => clearLeftover (word ^^^ mask overbits) (overbits + 1) count

-- Memory is there for the bitmap and its map. WORD_BITS is a size_t, so the sum
-- of the first assertion is taken in 64 bits; the bits past nbits in the last
-- word are marked in use.
def bitmapCreate (nbits : Nat) : Except Fault Bitmap := do
  check (nbits ≠ 0 ∧ nbits < (nbits + wordBits) % 2 ^ 64) .assertFailed
  let nwords := roundUpDiv nbits wordBits
  let map : Nat → BitVec 32 := fun _ => BitVec.allOnes 32
  if nbits = nwords * wordBits then return ⟨nbits, nwords, map⟩
  let ix := nwords - 1
  let overbits := nbits - ix * wordBits
  check (nbits / wordBits = ix) .assertFailed
  check (0 < overbits ∧ overbits < wordBits) .assertFailed
  return ⟨nbits, nwords, Function.update map ix (clearLeftover (map ix) overbits (wordBits - overbits))⟩

-- The inner and the outer loop of bitmap_alloc.
def scanWord (word : BitVec 32) (offset : Nat) : Nat → Option Nat
  | 0 => none
  | count + 1 => if word &&& mask offset ≠ 0#32 then some offset else scanWord word (offset + 1) count

def scanMap (b : Bitmap) (ix : Nat) : Nat → Except Fault (Int × Nat × Bitmap)
  | 0 => .ok (eNoMem, 0, b)
  | count + 1 =>
      if b.map ix ≠ 0#32 then
        match scanWord (b.map ix) 0 wordBits with
        | some offset => .ok (0, ix * wordBits + offset, b.setWord ix (b.map ix ^^^ mask offset))
        | none => .error .assertFailed
      else scanMap b (ix + 1) count

def bitmapAlloc (b : Bitmap) : Except Fault (Int × Nat × Bitmap) := scanMap b 0 b.nwords

def bitmapTest (b : Bitmap) (index : Nat) : Except Fault Bool := do
  check (index < b.nbits) .assertFailed
  return b.map (index / wordBits) &&& mask (index % wordBits) ≠ 0#32

def bitmapFree (b : Bitmap) (index : Nat) : Except Fault Bitmap := do
  check (index < b.nbits) .assertFailed
  let word := b.map (index / wordBits)
  check (word &&& mask (index % wordBits) = 0#32) .assertFailed
  return b.setWord (index / wordBits) (word ||| mask (index % wordBits))

theorem mask_bit (offset j : Nat) (small : offset < 32) : (mask offset).getLsbD j = decide (j = offset) := by
  by_cases same : j = offset
  · simp [mask, same, small]
  · simp [mask, BitVec.getLsbD_shiftLeft, BitVec.getLsbD_one, same]
    omega

theorem masked_bit (word : BitVec 32) (offset : Nat) (small : offset < 32) :
    (word &&& mask offset ≠ 0#32) ↔ word.getLsbD offset = true := by
  constructor
  · intro nonzero
    by_contra off
    apply nonzero
    apply BitVec.eq_of_getLsbD_eq
    intro i bound
    by_cases same : i = offset
    · simp [same, off]
    · have apart : ¬ (i - offset = 0 ∧ offset ≤ i) := by omega
      simp [mask, BitVec.getLsbD_shiftLeft, BitVec.getLsbD_one]
      omega
  · intro on zero
    have here := congrArg (fun w => BitVec.getLsbD w offset) zero
    simp only [BitVec.getLsbD_and, on, mask_bit offset offset small, BitVec.getLsbD_zero] at here
    simp at here

theorem bit_set_word (b : Bitmap) (ix : Nat) (word : BitVec 32) (j : Nat) :
    (b.setWord ix word).bit j = if j / wordBits = ix then word.getLsbD (j % wordBits) else b.bit j := by
  by_cases here : j / wordBits = ix
  · simp [Bitmap.bit, Bitmap.setWord, here]
  · simp [Bitmap.bit, Bitmap.setWord, here]

theorem scan_word_some (word : BitVec 32) (offset count found : Nat) (bound : offset + count ≤ 32)
    (scanned : scanWord word offset count = some found) :
    offset ≤ found ∧ found < offset + count ∧ word.getLsbD found = true ∧ ∀ j, offset ≤ j → j < found → word.getLsbD j = false := by
  induction count generalizing offset with
  | zero => simp [scanWord] at scanned
  | succ count ih =>
      by_cases on : word &&& mask offset ≠ 0#32
      · simp only [scanWord, if_pos on, Option.some.injEq] at scanned
        subst scanned
        exact ⟨by omega, by omega, (masked_bit word offset (by omega)).mp on, fun j _ _ => by omega⟩
      · simp only [scanWord, if_neg on] at scanned
        obtain ⟨lower, upper, bitOn, before⟩ := ih (offset + 1) (by omega) scanned
        refine ⟨by omega, by omega, bitOn, fun j atLeast less => ?_⟩
        by_cases first : j = offset
        · rw [first, ← Bool.not_eq_true, ← masked_bit word offset (by omega)]
          exact on
        · exact before j (by omega) less

theorem scan_word_none (word : BitVec 32) (offset count : Nat) (bound : offset + count ≤ 32)
    (scanned : scanWord word offset count = none) : ∀ j, offset ≤ j → j < offset + count → word.getLsbD j = false := by
  induction count generalizing offset with
  | zero => exact fun j _ _ => by omega
  | succ count ih =>
      by_cases on : word &&& mask offset ≠ 0#32
      · simp [scanWord, on] at scanned
      · simp only [scanWord, if_neg on] at scanned
        intro j atLeast less
        by_cases first : j = offset
        · rw [first, ← Bool.not_eq_true, ← masked_bit word offset (by omega)]
          exact on
        · exact ih (offset + 1) (by omega) scanned j (by omega) (by omega)

-- The least set bit is taken; without one the map is left as it is.
theorem scan_map_spec (b : Bitmap) (ix count : Nat) (clear : ∀ j, j < ix * 32 → b.bit j = false) :
    (scanMap b ix count = .ok (eNoMem, 0, b) ∧ ∀ j, j < (ix + count) * 32 → b.bit j = false) ∨
      ∃ index taken, scanMap b ix count = .ok (0, index, taken) ∧ index < (ix + count) * 32 ∧ b.bit index = true ∧
        (∀ j, j < index → b.bit j = false) ∧ taken.nbits = b.nbits ∧ taken.nwords = b.nwords ∧
        ∀ j, taken.bit j = (b.bit j && j != index) := by
  induction count generalizing ix with
  | zero => exact Or.inl ⟨rfl, clear⟩
  | succ count ih =>
      by_cases empty : b.map ix = 0#32
      · have clearNext : ∀ j, j < (ix + 1) * 32 → b.bit j = false := by
          intro j bound
          by_cases below : j < ix * 32
          · exact clear j below
          · have word : j / 32 = ix := by omega
            simp [Bitmap.bit, wordBits, word, empty]
        rw [show ix + (count + 1) = ix + 1 + count by omega]
        simpa [scanMap, empty] using ih (ix + 1) clearNext
      · cases scanned : scanWord (b.map ix) 0 wordBits with
        | none =>
            exfalso
            apply empty
            apply BitVec.eq_of_getLsbD_eq
            intro i bound
            simpa using scan_word_none (b.map ix) 0 32 (by omega) scanned i (by omega) (by omega)
        | some offset =>
            obtain ⟨_, upper, on, before⟩ := scan_word_some (b.map ix) 0 32 offset (by omega) scanned
            have small : offset < 32 := by omega
            refine Or.inr ⟨ix * wordBits + offset, b.setWord ix (b.map ix ^^^ mask offset), by simp [scanMap, empty, scanned], ?_, ?_, ?_, rfl, rfl, fun j => ?_⟩
            · simp only [wordBits]
              omega
            · have word : (ix * 32 + offset) / 32 = ix := by omega
              have place : (ix * 32 + offset) % 32 = offset := by omega
              simp [Bitmap.bit, wordBits, word, place, on]
            · intro j less
              simp only [wordBits] at less
              by_cases below : j < ix * 32
              · exact clear j below
              · have word : j / 32 = ix := by omega
                simpa [Bitmap.bit, wordBits, word] using before (j % 32) (by omega) (by omega)
            · rw [bit_set_word]
              by_cases word : j / 32 = ix
              · have same : (j % 32 = offset) ↔ j = ix * 32 + offset := by omega
                simp only [wordBits, word, if_true, BitVec.getLsbD_xor, mask_bit offset _ small, same, Bitmap.bit]
                by_cases here : j = ix * 32 + offset
                · have place : j % 32 = offset := by omega
                  rw [place, on]
                  simp [here]
                · simp [here]
              · have apart : j ≠ ix * 32 + offset := by omega
                simp [wordBits, word, apart]

theorem bitmap_alloc_spec (b : Bitmap) :
    (bitmapAlloc b = .ok (eNoMem, 0, b) ∧ ∀ j, j < b.nwords * 32 → b.bit j = false) ∨
      ∃ index taken, bitmapAlloc b = .ok (0, index, taken) ∧ index < b.nwords * 32 ∧ b.bit index = true ∧
        (∀ j, j < index → b.bit j = false) ∧ taken.nbits = b.nbits ∧ taken.nwords = b.nwords ∧
        ∀ j, taken.bit j = (b.bit j && j != index) := by
  simpa [bitmapAlloc] using scan_map_spec b 0 b.nwords (by simp)

theorem bitmap_test_spec (b : Bitmap) (index : Nat) (bound : index < b.nbits) : bitmapTest b index = .ok (b.bit index) := by
  have bit := masked_bit (b.map (index / 32)) (index % 32) (by omega)
  simp only [bitmapTest, bound, decide_true, check_true, Bitmap.bit, wordBits, ok_bind, pure_ok]
  by_cases on : (b.map (index / 32)).getLsbD (index % 32) = true
  · simp [bit.mpr on, on]
  · have zero : b.map (index / 32) &&& mask (index % 32) = 0#32 := by
      by_contra nonzero
      exact on (bit.mp nonzero)
    simp [zero, on]

theorem bitmap_free_spec (b : Bitmap) (index : Nat) (bound : index < b.nbits) (used : b.bit index = false) :
    ∃ freed, bitmapFree b index = .ok freed ∧ freed.nbits = b.nbits ∧ freed.nwords = b.nwords ∧
      ∀ j, freed.bit j = (b.bit j || j == index) := by
  have zero : b.map (index / 32) &&& mask (index % 32) = 0#32 := by
    by_contra nonzero
    have on := (masked_bit (b.map (index / 32)) (index % 32) (by omega)).mp nonzero
    simp [Bitmap.bit, wordBits, on] at used
  refine ⟨b.setWord (index / 32) (b.map (index / 32) ||| mask (index % 32)), ?_, rfl, rfl, fun j => ?_⟩
  · simp [bitmapFree, bound, wordBits, zero]
  rw [bit_set_word]
  by_cases word : j / 32 = index / 32
  · have same : (j % 32 = index % 32) ↔ j = index := by omega
    simp only [wordBits, word, if_true, BitVec.getLsbD_or, mask_bit _ _ (show index % 32 < 32 by omega), same, Bitmap.bit]
    rfl
  · have apart : j ≠ index := fun here => word (by rw [here])
    simp [wordBits, word, apart]

theorem clear_leftover_bit (word : BitVec 32) (overbits count j : Nat) (bound : overbits + count ≤ 32) :
    (clearLeftover word overbits count).getLsbD j = (word.getLsbD j ^^ decide (overbits ≤ j ∧ j < overbits + count)) := by
  induction count generalizing word overbits with
  | zero =>
      have outside : ¬ (overbits ≤ j ∧ j < overbits + 0) := by omega
      rw [clearLeftover, decide_eq_false outside, Bool.xor_false]
  | succ count ih =>
      rw [clearLeftover, ih _ _ (by omega), BitVec.getLsbD_xor, mask_bit overbits j (by omega), Bool.xor_assoc]
      congr 1
      by_cases first : j = overbits
      · have past : ¬ (overbits + 1 ≤ j ∧ j < overbits + 1 + count) := by omega
        have inside : overbits ≤ j ∧ j < overbits + (count + 1) := by omega
        rw [decide_eq_true first, decide_eq_false past, decide_eq_true inside, Bool.xor_false]
      · have same : (overbits + 1 ≤ j ∧ j < overbits + 1 + count) ↔ overbits ≤ j ∧ j < overbits + (count + 1) := by omega
        rw [decide_eq_false first, Bool.false_xor, decide_eq_decide]
        exact same

theorem bitmap_create_spec (nbits : Nat) (nonzero : nbits ≠ 0) (fits : nbits < 2 ^ 32) :
    ∃ b, bitmapCreate nbits = .ok b ∧ b.nbits = nbits ∧ b.nwords = roundUpDiv nbits 32 ∧
      ∀ j, j < b.nwords * 32 → b.bit j = decide (j < nbits) := by
  have whole : (nbits + wordBits) % 2 ^ 64 = nbits + wordBits := Nat.mod_eq_of_lt (by simp only [wordBits]; omega)
  have grows : nbits < nbits + wordBits := by
    simp only [wordBits]
    omega
  have fine : decide (nbits ≠ 0 ∧ nbits < (nbits + wordBits) % 2 ^ 64) = true := by
    rw [whole]
    exact decide_eq_true ⟨nonzero, grows⟩
  rw [bitmapCreate, fine, check_true, ok_bind]
  by_cases exact : nbits = roundUpDiv nbits wordBits * wordBits
  · rw [if_pos exact]
    refine ⟨_, rfl, rfl, rfl, fun j inside => ?_⟩
    have below : j < nbits := by
      rw [exact]
      exact inside
    rw [decide_eq_true below, Bitmap.bit, BitVec.getLsbD_allOnes]
    exact decide_eq_true (Nat.mod_lt j (by decide))
  · have partly : nbits ≠ (nbits + 31) / 32 * 32 := exact
    have last : nbits / wordBits = roundUpDiv nbits wordBits - 1 := by
      show nbits / 32 = (nbits + 31) / 32 - 1
      omega
    have overbits : nbits - (roundUpDiv nbits wordBits - 1) * wordBits = nbits % 32 := by
      show nbits - ((nbits + 31) / 32 - 1) * 32 = nbits % 32
      omega
    have between : 0 < nbits % 32 ∧ nbits % 32 < wordBits := by
      simp only [wordBits]
      omega
    rw [if_neg exact]
    simp only [overbits, decide_eq_true last, decide_eq_true between, check_true, ok_bind]
    refine ⟨_, rfl, rfl, rfl, fun j inside => ?_⟩
    have below : j < (nbits + 31) / 32 * 32 := inside
    have place : j % 32 < 32 := Nat.mod_lt j (by decide)
    show (Function.update (fun _ => BitVec.allOnes 32) ((nbits + 31) / 32 - 1) (clearLeftover (BitVec.allOnes 32) (nbits % 32) (32 - nbits % 32))
      (j / 32)).getLsbD (j % 32) = decide (j < nbits)
    by_cases word : j / 32 = (nbits + 31) / 32 - 1
    · have past : (nbits % 32 ≤ j % 32 ∧ j % 32 < nbits % 32 + (32 - nbits % 32)) ↔ ¬ j < nbits := by omega
      rw [word, Function.update_self, clear_leftover_bit _ _ _ _ (by omega), BitVec.getLsbD_allOnes, decide_eq_true place,
        Bool.true_xor, decide_eq_decide.mpr past, decide_not, Bool.not_not]
    · have earlier : j < nbits := by omega
      rw [Function.update_of_ne word, BitVec.getLsbD_allOnes, decide_eq_true place, decide_eq_true earlier]

-- How many bits are set below a bound.
def Bitmap.count (b : Bitmap) : Nat → Nat
  | 0 => 0
  | bound + 1 => b.count bound + (b.bit bound).toNat

theorem count_congr (a b : Bitmap) (bound : Nat) (same : ∀ j, j < bound → a.bit j = b.bit j) : a.count bound = b.count bound := by
  induction bound with
  | zero => rfl
  | succ bound ih =>
      rw [Bitmap.count, Bitmap.count, same bound (by omega), ih fun j less => same j (by omega)]

theorem count_cleared (a b : Bitmap) (bound index : Nat) (inside : index < bound) (on : a.bit index = true)
    (off : ∀ j, b.bit j = (a.bit j && j != index)) : b.count bound + 1 = a.count bound := by
  induction bound with
  | zero => omega
  | succ bound ih =>
      rw [Bitmap.count, Bitmap.count]
      by_cases last : index = bound
      · subst last
        have lower : b.count index = a.count index := count_congr b a index fun j less => by
          have apart : j ≠ index := by omega
          simp [off j, apart]
        simp [lower, off index, on]
      · have lower := ih (by omega)
        have apart : bound ≠ index := fun same => last same.symm
        have same : b.bit bound = a.bit bound := by simp [off bound, apart]
        rw [same]
        omega

theorem count_set (a b : Bitmap) (bound index : Nat) (inside : index < bound) (off : a.bit index = false)
    (on : ∀ j, b.bit j = (a.bit j || j == index)) : b.count bound = a.count bound + 1 := by
  refine (count_cleared b a bound index inside (by simp [on index]) fun j => ?_).symm
  by_cases here : j = index
  · simp [here, off]
  · have apart : (j == index) = false := by simpa using here
    simp [on j, apart, here]

theorem count_zero (b : Bitmap) (bound : Nat) : b.count bound = 0 ↔ ∀ j, j < bound → b.bit j = false := by
  induction bound with
  | zero => simp [Bitmap.count]
  | succ bound ih =>
      rw [Bitmap.count, Nat.add_eq_zero_iff, ih]
      constructor
      · rintro ⟨lower, last⟩ j less
        by_cases here : j = bound
        · subst here
          simpa using last
        · exact lower j (by omega)
      · intro all
        exact ⟨fun j less => all j (by omega), by simp [all bound (by omega)]⟩

end Ucore.Sfs
