import Mathlib.Data.BitVec
import Mathlib.Logic.Function.Basic
import Ucore.Lib.Sizes

set_option autoImplicit false

namespace Ucore.Lib

-- Accounts that are charged step by step, the least charged one first: none
-- gets ahead of another by more than the largest single charge.
section Balance

variable {Member : Type}

def Balanced (members : Member → Prop) (bound : Nat) (accounts : Member → Nat) : Prop :=
  ∀ a b, members a → members b → accounts a ≤ accounts b + bound

theorem balanced_charge_least [DecidableEq Member] (members : Member → Prop) (bound charge : Nat) (accounts : Member → Nat)
    (least : Member) (balanced : Balanced members bound accounts) (small : charge ≤ bound)
    (first : ∀ other, members other → accounts least ≤ accounts other) :
    Balanced members bound (Function.update accounts least (accounts least + charge)) := by
  intro a b inA inB
  have behindA := first a inA
  have behindB := first b inB
  have gap := balanced a b inA inB
  by_cases atA : a = least
  · subst atA
    by_cases atB : b = a
    · simp [atB]
    · simp only [Function.update_self, Function.update_of_ne atB]
      omega
  · rw [Function.update_of_ne atA]
    by_cases atB : b = least
    · subst atB
      rw [Function.update_self]
      omega
    · rwa [Function.update_of_ne atB]

end Balance

-- Wrapped counters whose true values lie in a window of less than half the
-- modulus: the signed difference of the wrapped values is the true one.
theorem wrapped_sub_to_int (w : Nat) (base : BitVec w) (a b : Nat) (positive : 0 < w)
    (low : -(2 ^ (w - 1) : Int) ≤ (a : Int) - b) (high : (a : Int) - b < 2 ^ (w - 1)) :
    ((base + BitVec.ofNat w a) - (base + BitVec.ofNat w b)).toInt = (a : Int) - b := by
  have difference : (base + BitVec.ofNat w a) - (base + BitVec.ofNat w b) = BitVec.ofInt w ((a : Int) - b) := by
    rw [add_sub_add_left_eq_sub]
    apply BitVec.eq_of_toInt_eq
    rw [BitVec.toInt_sub, ← BitVec.ofInt_natCast, ← BitVec.ofInt_natCast, BitVec.toInt_ofInt, BitVec.toInt_ofInt,
      BitVec.toInt_ofInt, Int.bmod_sub_bmod, Int.sub_bmod_bmod]
  rw [difference, BitVec.toInt_ofInt_eq_self positive low high]

end Ucore.Lib
