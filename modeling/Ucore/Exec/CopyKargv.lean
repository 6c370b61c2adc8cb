import Ucore.Exec.LoadIcode
import Ucore.Vmm.CopyString

set_option autoImplicit false

namespace Ucore.Exec

open Ucore.Lib Ucore.Vmm

def execMaxArgNum : Nat := 32
def execMaxArgLen : Nat := 4095

-- What do_execve lets through.
structure Accepted (kargv : List (List UInt8)) : Prop where
  some' : 1 ≤ kargv.length
  num : kargv.length ≤ execMaxArgNum
  len : ∀ arg ∈ kargv, arg.length ≤ execMaxArgLen
  strings : ∀ arg ∈ kargv, (0 : UInt8) ∉ arg

def cstr (buffer : Bytes) : List UInt8 := (List.range (strnlen buffer 0 (execMaxArgLen + 1))).map buffer

-- The loop of copy_kargv from argument i on. The buffers that kmalloc gives hold
-- anything; put_kargv frees them again on a failure.
def copyArgs (user : Bytes) (kmalloc : Nat → Option Bytes) (argv : UInt64) (mm : Option Mm) (i : Nat) :
    Nat → Except Fault (Except Int (List (List UInt8)) × Option Mm)
  | 0 => .ok (.ok [], mm)
  | left + 1 =>
      match kmalloc i with
      | none => .ok (.error eNoMem, mm)
      | some buffer => do
          let arg := UInt64.ofNat (getLe user (argv.toNat + sizeofPtr * i) sizeofPtr)
          let (copied, mm, buffer, _) ← copyString user mm buffer arg (UInt64.ofNat (execMaxArgLen + 1))
          if !copied then return (.error eInval, mm)
          else
            let (rest, mm) ← copyArgs user kmalloc argv mm (i + 1) left
            return (rest.map fun args => cstr buffer :: args, mm)

def copyKargv (user : Bytes) (kmalloc : Nat → Option Bytes) (mm : Option Mm) (argc : Nat) (argv : UInt64) :
    Except Fault (Except Int (List (List UInt8)) × Option Mm) := do
  let (allowed, mm) ← userMemCheck mm argv (UInt64.ofNat (sizeofPtr * argc)) false
  if !allowed then return (.error eInval, mm)
  else copyArgs user kmalloc argv mm 0 argc

-- do_execve up to its arguments.
def execKargv (user : Bytes) (kmalloc : Nat → Option Bytes) (mm : Option Mm) (argc : Int) (argv : UInt64) :
    Except Fault (Except Int (List (List UInt8)) × Option Mm) :=
  if 1 ≤ argc ∧ argc ≤ execMaxArgNum then copyKargv user kmalloc mm argc.toNat argv else .ok (.error eInval, mm)

theorem cstr_short (buffer : Bytes) (i : Nat) (short : i ≤ execMaxArgLen) (ends : buffer i = 0) :
    (cstr buffer).length ≤ execMaxArgLen ∧ (0 : UInt8) ∉ cstr buffer := by
  obtain ⟨_, before, _⟩ := strnlen_spec buffer 0 (execMaxArgLen + 1)
  refine ⟨?_, fun member => ?_⟩
  · rw [cstr, List.length_map, List.length_range]
    by_contra long
    have nonzero := before i (by omega)
    rw [Nat.zero_add] at nonzero
    exact nonzero ends
  · obtain ⟨j, inside, zero⟩ := List.mem_map.mp member
    have nonzero := before j (List.mem_range.mp inside)
    rw [Nat.zero_add] at nonzero
    exact nonzero zero

-- Whatever the areas are, a string that was copied ends within the buffer.
theorem copy_string_loop_ends (user : Bytes) (mm mm' : Option Mm) (dst last : Bytes) (filled : Nat) (src maxn part : UInt64) (fuel : Nat)
    (touches : List Touch) (ran : copyStringLoop user mm dst filled src maxn part fuel = .ok (true, mm', last, touches)) :
    ∃ i, i < maxn.toNat ∧ last (filled + i) = 0 := by
  induction fuel generalizing mm dst filled src maxn part touches with
  | zero => simp [copyStringLoop] at ran
  | succ fuel ih =>
      rw [copyStringLoop] at ran
      simp only [] at ran
      have small : (if part > maxn then maxn else part).toNat ≤ maxn.toNat := by
        by_cases above : part > maxn
        · rw [if_pos above]
        · rw [if_neg above]
          exact UInt64.le_iff_toNat_le.mp (UInt64.not_lt.mp above)
      generalize (if part > maxn then maxn else part) = part at ran small
      obtain ⟨⟨allowed, mm1⟩, _, ran⟩ := bind_ok ran
      cases allowed with
      | false => simp at ran
      | true =>
          obtain ⟨_, _, found⟩ := strnlen_spec user src.toNat part.toNat
          simp only [Bool.not_true, Bool.false_eq_true, if_false] at ran
          by_cases ends : strnlen user src.toNat part.toNat < part.toNat
          · simp only [if_pos ends, pure_ok, Except.ok.injEq, Prod.mk.injEq, true_and] at ran
            refine ⟨strnlen user src.toNat part.toNat, by omega, ?_⟩
            rw [← ran.2.1, from_at user dst filled src.toNat _ _ (by omega)]
            exact found ends
          · simp only [if_neg ends] at ran
            by_cases spent : part = maxn
            · simp [spent] at ran
            · simp only [if_neg spent] at ran
              obtain ⟨⟨result, mm2, last2, touches2⟩, rest, ran⟩ := bind_ok ran
              simp only [pure_ok, Except.ok.injEq, Prod.mk.injEq] at ran
              obtain ⟨rfl, rfl, rfl, _⟩ := ran
              obtain ⟨i, bound, zero⟩ := ih _ _ _ _ _ _ _ rest
              have room : (maxn - part).toNat = maxn.toNat - part.toNat := UInt64.toNat_sub_of_le maxn part (UInt64.le_iff_toNat_le.mpr small)
              exact ⟨part.toNat + i, by omega, by rw [← Nat.add_assoc]; exact zero⟩

theorem copy_args_strings (user : Bytes) (kmalloc : Nat → Option Bytes) (argv : UInt64) (mm mm' : Option Mm) (left i : Nat)
    (kargv : List (List UInt8)) (ran : copyArgs user kmalloc argv mm i left = .ok (.ok kargv, mm')) :
    kargv.length = left ∧ ∀ arg ∈ kargv, arg.length ≤ execMaxArgLen ∧ (0 : UInt8) ∉ arg := by
  induction left generalizing mm i kargv with
  | zero =>
      simp only [copyArgs, Except.ok.injEq, Prod.mk.injEq] at ran
      obtain ⟨rfl, _⟩ := ran
      exact ⟨rfl, by simp⟩
  | succ left ih =>
      rw [copyArgs] at ran
      cases got : kmalloc i with
      | none => simp [got] at ran
      | some buffer =>
          simp only [got] at ran
          obtain ⟨⟨copied, mm1, last, touches⟩, string, ran⟩ := bind_ok ran
          cases copied with
          | false => simp at ran
          | true =>
              simp only [Bool.not_true, Bool.false_eq_true, if_false] at ran
              obtain ⟨⟨rest, mm2⟩, others, ran⟩ := bind_ok ran
              simp only [pure_ok, Except.ok.injEq, Prod.mk.injEq] at ran
              cases rest with
              | error ret => simp [Except.map] at ran
              | ok args =>
                  simp only [Except.map, Except.ok.injEq] at ran
                  obtain ⟨rfl, rfl⟩ := ran
                  obtain ⟨count, short⟩ := ih mm1 (i + 1) args others
                  obtain ⟨j, bound, zero⟩ := copy_string_loop_ends user mm mm1 buffer last 0 _ _ _ _ touches string
                  have size : (UInt64.ofNat (execMaxArgLen + 1)).toNat = execMaxArgLen + 1 := by decide
                  rw [size] at bound
                  rw [Nat.zero_add] at zero
                  refine ⟨by rw [List.length_cons, count], fun arg member => ?_⟩
                  rcases List.mem_cons.mp member with rfl | inRest
                  · exact cstr_short last j (by omega) zero
                  · exact short arg inRest

-- The arguments that reach load_icode.
theorem exec_kargv_accepted (user : Bytes) (kmalloc : Nat → Option Bytes) (mm mm' : Option Mm) (argc : Int) (argv : UInt64)
    (kargv : List (List UInt8)) (ran : execKargv user kmalloc mm argc argv = .ok (.ok kargv, mm')) : Accepted kargv := by
  rw [execKargv] at ran
  by_cases count : 1 ≤ argc ∧ argc ≤ execMaxArgNum
  · rw [if_pos count, copyKargv] at ran
    obtain ⟨⟨allowed, mm1⟩, _, ran⟩ := bind_ok ran
    cases allowed with
    | false => simp at ran
    | true =>
        simp only [Bool.not_true, Bool.false_eq_true, if_false] at ran
        obtain ⟨length, strings⟩ := copy_args_strings user kmalloc argv mm1 mm' argc.toNat 0 kargv ran
        exact ⟨by omega, by omega, fun arg member => (strings arg member).1, fun arg member => (strings arg member).2⟩
  · simp [count] at ran

end Ucore.Exec
