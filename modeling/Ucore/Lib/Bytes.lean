import Mathlib.Logic.Function.Basic
import Mathlib.Data.Nat.Basic
import Ucore.Lib.Sizes

set_option autoImplicit false

namespace Ucore.Lib

-- Bytes from an address on. A record or a block is a window into them.
abbrev Bytes := Nat → UInt8

def zeroBytes : Bytes := fun _ => 0

def memcpy (dst : Bytes) (offset : Nat) (src : Bytes) (len : Nat) : Bytes :=
  fun i => if offset ≤ i ∧ i < offset + len then src (i - offset) else dst i

def Bytes.from (bytes : Bytes) (offset : Nat) : Bytes := fun i => bytes (offset + i)

-- Little endian numbers of n bytes.
def getLe (bytes : Bytes) (offset : Nat) : Nat → Nat
  | 0 => 0
  | n + 1 => (bytes offset).toNat + 256 * getLe bytes (offset + 1) n

def toLe (value : Nat) : Bytes := fun i => UInt8.ofNat (value / 256 ^ i)

theorem memcpy_inside (dst src : Bytes) (offset len i : Nat) (lower : offset ≤ i) (upper : i < offset + len) :
    memcpy dst offset src len i = src (i - offset) := if_pos ⟨lower, upper⟩

theorem memcpy_outside (dst src : Bytes) (offset len i : Nat) (outside : i < offset ∨ offset + len ≤ i) :
    memcpy dst offset src len i = dst i := if_neg (by omega)

theorem memcpy_none (dst src : Bytes) (offset : Nat) : memcpy dst offset src 0 = dst := by
  funext i
  exact memcpy_outside dst src offset 0 i (by omega)

theorem memcpy_congr (dst src other : Bytes) (offset len : Nat) (same : ∀ k, k < len → src k = other k) :
    memcpy dst offset src len = memcpy dst offset other len := by
  funext i
  unfold memcpy
  split
  · exact same _ (by omega)
  · rfl

-- Two copies that meet are one.
theorem memcpy_append (dst src : Bytes) (offset first second : Nat) :
    memcpy (memcpy dst offset src first) (offset + first) (src.from first) second = memcpy dst offset src (first + second) := by
  funext i
  by_cases below : i < offset
  · rw [memcpy_outside _ _ _ _ i (.inl (by omega)), memcpy_outside _ _ _ _ i (.inl below), memcpy_outside _ _ _ _ i (.inl below)]
  · by_cases early : i < offset + first
    · rw [memcpy_outside _ _ _ _ i (.inl early), memcpy_inside _ _ _ _ i (by omega) early, memcpy_inside _ _ _ _ i (by omega) (by omega)]
    · by_cases late : i < offset + first + second
      · rw [memcpy_inside _ _ _ _ i (by omega) late, memcpy_inside _ _ _ _ i (by omega) (by omega), Bytes.from]
        congr 1
        omega
      · rw [memcpy_outside _ _ _ _ i (.inr (by omega)), memcpy_outside _ _ _ _ i (.inr (by omega)), memcpy_outside _ _ _ _ i (.inr (by omega))]

theorem get_le_congr (left right : Bytes) (offset other n : Nat) (same : ∀ i, i < n → left (offset + i) = right (other + i)) :
    getLe left offset n = getLe right other n := by
  induction n generalizing offset other with
  | zero => rfl
  | succ n ih =>
      have first := same 0 (by omega)
      have rest := ih (offset + 1) (other + 1) fun i bound => by
        have next := same (i + 1) (by omega)
        rwa [show offset + 1 + i = offset + (i + 1) by omega, show other + 1 + i = other + (i + 1) by omega]
      simp only [Nat.add_zero] at first
      simp only [getLe, first, rest]

theorem get_le_memcpy_same (dst src : Bytes) (offset n : Nat) : getLe (memcpy dst offset src n) offset n = getLe src 0 n := by
  refine get_le_congr _ _ offset 0 n fun i bound => ?_
  rw [memcpy_inside dst src offset n (offset + i) (by omega) (by omega), Nat.zero_add]
  congr 1
  omega

theorem get_le_memcpy_other (dst src : Bytes) (offset len other n : Nat) (apart : other + n ≤ offset ∨ offset + len ≤ other) :
    getLe (memcpy dst offset src len) other n = getLe dst other n :=
  get_le_congr _ _ other other n fun i bound => memcpy_outside dst src offset len (other + i) (by omega)

theorem get_le_to_le_from (value offset n : Nat) : getLe (toLe value) offset n = value / 256 ^ offset % 256 ^ n := by
  induction n generalizing offset with
  | zero => simp [getLe, Nat.mod_one]
  | succ n ih =>
      have byte : (toLe value offset).toNat = value / 256 ^ offset % 256 := by simp [toLe]
      rw [getLe, byte, ih, Nat.pow_succ 256 n, Nat.mul_comm (256 ^ n) 256, Nat.mod_mul, Nat.pow_succ, Nat.div_div_eq_div_mul]

theorem get_le_to_le (value n : Nat) (fits : value < 256 ^ n) : getLe (toLe value) 0 n = value := by
  rw [get_le_to_le_from, Nat.pow_zero, Nat.div_one, Nat.mod_eq_of_lt fits]

theorem get_le_zero (offset n : Nat) : getLe zeroBytes offset n = 0 := by
  induction n generalizing offset with
  | zero => rfl
  | succ n ih => simp [getLe, zeroBytes, ih]

theorem get_le_lt (bytes : Bytes) (offset n : Nat) : getLe bytes offset n < 256 ^ n := by
  induction n generalizing offset with
  | zero => simp [getLe]
  | succ n ih =>
      have byte := (bytes offset).toNat_lt
      have rest := ih (offset + 1)
      rw [getLe, Nat.pow_succ]
      omega

-- The bytes of a list stand in memory from an address on.
def HoldsAt (mem : Bytes) (addr : Nat) (text : List UInt8) : Prop := ∀ i (bound : i < text.length), mem (addr + i) = text.get ⟨i, bound⟩

section Placed

variable (mem : Bytes) (addr : Nat)

theorem holds_nil : HoldsAt mem addr [] := fun i bound => absurd bound (Nat.not_lt_zero i)

theorem holds_cons (c : UInt8) (rest : List UInt8) : HoldsAt mem addr (c :: rest) ↔ mem addr = c ∧ HoldsAt mem (addr + 1) rest := by
  constructor
  · intro held
    refine ⟨held 0 (Nat.zero_lt_succ _), fun i bound => ?_⟩
    have next := held (i + 1) (Nat.succ_lt_succ bound)
    rwa [show addr + (i + 1) = addr + 1 + i by omega] at next
  · intro held i bound
    cases i with
    | zero => exact held.1
    | succ i =>
        have next := held.2 i (Nat.lt_of_succ_lt_succ bound)
        rwa [show addr + 1 + i = addr + (i + 1) by omega] at next

theorem holds_append (first second : List UInt8) :
    HoldsAt mem addr (first ++ second) ↔ HoldsAt mem addr first ∧ HoldsAt mem (addr + first.length) second := by
  induction first generalizing addr with
  | nil => simp [holds_nil]
  | cons c rest ih =>
      rw [List.cons_append, holds_cons, holds_cons, ih, and_assoc, List.length_cons, show addr + 1 + rest.length = addr + (rest.length + 1) by omega]

end Placed

-- The bytes of a list as memory at an address.
def placed (base : Nat) (text : List UInt8) : Bytes := fun addr => if addr < base then 0 else text.getD (addr - base) 0

theorem placed_holds (base skipped : Nat) (text part rest : List UInt8) (shape : text.drop skipped = part ++ rest) :
    HoldsAt (placed base text) (base + skipped) part := by
  intro i bound
  have here : text[skipped + i]? = some (part.get ⟨i, bound⟩) := by
    rw [← List.getElem?_drop, shape, List.getElem?_append_left bound]
    simp
  have above : ¬ base + skipped + i < base := by omega
  rw [placed, if_neg above, List.getD_eq_getElem?_getD, show base + skipped + i - base = skipped + i by omega, here]
  rfl

end Ucore.Lib
