import Ucore.Lib.Bytes
import Ucore.Stdio.Vsnprintf

set_option autoImplicit false

namespace Ucore.Stdio

open Ucore.Lib

def snprintf (fuel : Nat) (mem : Bytes) (str size : Nat) (fmt : List UInt8) (ap : List VaArg) : Except PrintFault (Int × Bytes) :=
  vsnprintf fuel mem str size fmt ap

-- The loop over blanks and tabs.
def skipBlanks (mem : Bytes) (s : Nat) : Nat → Option Nat
  | 0 => none
  | fuel + 1 => if mem s = chr ' ' ∨ mem s = chr '\t' then skipBlanks mem (s + 1) fuel else some s

def strtolDigit (ch : UInt8) : Option Nat :=
  if chr '0' ≤ ch ∧ ch ≤ chr '9' then some (ch.toNat - (chr '0').toNat)
  else if chr 'a' ≤ ch ∧ ch ≤ chr 'z' then some (ch.toNat - (chr 'a').toNat + 10)
  else if chr 'A' ≤ ch ∧ ch ≤ chr 'Z' then some (ch.toNat - (chr 'A').toNat + 10)
  else none

-- The loop over the digits; the value wraps around.
def strtolLoop (mem : Bytes) (s base : Nat) (val : BitVec 64) : Nat → Option (BitVec 64 × Nat)
  | 0 => none
  | fuel + 1 =>
      match strtolDigit (mem s) with
      | none => some (val, s)
      | some dig => if base ≤ dig then some (val, s) else strtolLoop mem (s + 1) base (val * BitVec.ofNat 64 base + BitVec.ofNat 64 dig) fuel

-- The value and the end pointer.
def strtol (mem : Bytes) (s base fuel : Nat) : Option (BitVec 64 × Nat) := do
  let s ← skipBlanks mem s fuel
  let neg := decide (mem s = chr '-')
  let s := if mem s = chr '+' ∨ mem s = chr '-' then s + 1 else s
  let hex := (base = 0 ∨ base = 16) ∧ mem s = chr '0' ∧ mem (s + 1) = chr 'x'
  let octal := base = 0 ∧ mem s = chr '0'
  let (s, base) := if hex then (s + 2, 16) else if octal then (s + 1, 8) else if base = 0 then (s, 10) else (s, base)
  let (val, s) ← strtolLoop mem s base 0 fuel
  return (if neg then -val else val, s)

section Digits

def digitChar (d : Nat) : UInt8 := digitChars.getD d 0

-- The digits that printnum puts out, and the number they stand for.
def numValues (base : Nat) : Nat → Nat → List Nat
  | 0, _ => []
  | k + 1, num => (if base ≤ num then numValues base k (num / base) else []) ++ [num % base]

def valueOf (base start : Nat) (digits : List Nat) : Nat := digits.foldl (fun acc d => acc * base + d) start

variable (base : Nat)

theorem num_digits_values (k num : Nat) : numDigits base k num = (numValues base k num).map digitChar := by
  induction k generalizing num with
  | zero => rfl
  | succ k ih =>
      rw [numDigits, numValues, List.map_append]
      by_cases more : base ≤ num
      · rw [if_pos more, if_pos more, ih]
        rfl
      · rw [if_neg more, if_neg more]
        rfl

theorem values_below (k num : Nat) (positive : 0 < base) : ∀ d ∈ numValues base k num, d < base := by
  induction k generalizing num with
  | zero => simp [numValues]
  | succ k ih =>
      intro d member
      rw [numValues, List.mem_append, List.mem_singleton] at member
      cases member with
      | inl front =>
          by_cases more : base ≤ num
          · rw [if_pos more] at front
            exact ih (num / base) d front
          · rw [if_neg more] at front
            cases front
      | inr last => rw [last]; exact Nat.mod_lt num positive

theorem values_value (k num : Nat) (two : 2 ≤ base) (small : num < 2 ^ k) : valueOf base 0 (numValues base (k + 1) num) = num := by
  induction k generalizing num with
  | zero =>
      have none : ¬ base ≤ num := by omega
      rw [numValues, if_neg none, Nat.mod_eq_of_lt (by omega)]
      simp [valueOf]
  | succ k ih =>
      rw [numValues, valueOf, List.foldl_append, List.foldl_cons, List.foldl_nil]
      by_cases more : base ≤ num
      · have half : num / base < 2 ^ k := by
          have less : num / base ≤ num / 2 := Nat.div_le_div_left two (by decide)
          rw [Nat.pow_succ] at small
          omega
        rw [if_pos more, show List.foldl _ 0 (numValues base (k + 1) (num / base)) = num / base from ih (num / base) half]
        exact Nat.div_add_mod' num base
      · rw [if_neg more, List.foldl_nil, Nat.zero_mul, Nat.zero_add]
        exact Nat.mod_eq_of_lt (by omega)

theorem values_length (m k num : Nat) (small : num < base ^ (m + 1)) : (numValues base k num).length ≤ m + 1 := by
  induction m generalizing k num with
  | zero =>
      cases k with
      | zero => simp [numValues]
      | succ k =>
          have none : ¬ base ≤ num := by
            rw [Nat.zero_add, Nat.pow_one] at small
            omega
          rw [numValues, if_neg none]
          simp
  | succ m ih =>
      cases k with
      | zero => simp [numValues]
      | succ k =>
          have front := ih k (num / base) (Nat.div_lt_of_lt_mul (by rw [Nat.mul_comm]; exact small))
          rw [numValues, List.length_append, List.length_singleton]
          by_cases more : base ≤ num
          · rw [if_pos more]
            omega
          · rw [if_neg more, List.length_nil]
            omega

theorem values_some (k num : Nat) : numValues base (k + 1) num ≠ [] := by
  rw [numValues]
  simp

theorem pads_none (k num : Nat) (width : Int) (small : width ≤ 0) (near : -2 ^ 31 ≤ width - k) : numPads base k num width = 0 := by
  induction k generalizing num width with
  | zero => rfl
  | succ k ih =>
      have next : toInt (width - 1) = width - 1 := Int.bmod_eq_of_le (by omega) (by omega)
      rw [numPads, next]
      by_cases more : base ≤ num
      · rw [if_pos more]
        exact ih _ _ (by omega) (by omega)
      · rw [if_neg more]
        omega

theorem num_text_unpadded (padc : UInt8) (num : Nat) : numText base padc num (-1) = (numValues base 65 num).map digitChar := by
  rw [numText, pads_none base 65 num (-1) (by omega) (by omega), List.replicate_zero, List.nil_append, num_digits_values]

theorem digit_char_read (d : Nat) (hex : d < 16) : strtolDigit (digitChar d) = some d ∧ digitChar d ≠ chr ' ' ∧ digitChar d ≠ chr '\t' ∧ digitChar d ≠ chr '+' ∧
    digitChar d ≠ chr '-' ∧ digitChar d ≠ chr 'x' := by
  revert d
  decide

end Digits

section Parse

variable (mem : Bytes) (base : Nat)

-- The loop reads the digits and adds them to what it has.
theorem strtol_loop_spec (digits : List Nat) (s start fuel : Nat) (held : HoldsAt mem s (digits.map digitChar ++ [0])) (below : ∀ d ∈ digits, d < base)
    (hex : base ≤ 16) (enough : digits.length < fuel) :
    strtolLoop mem s base (BitVec.ofNat 64 start) fuel = some (BitVec.ofNat 64 (valueOf base start digits), s + digits.length) := by
  induction digits generalizing s start fuel with
  | nil =>
      obtain ⟨n, rfl⟩ := Nat.exists_eq_succ_of_ne_zero (Nat.ne_of_gt enough)
      have last := ((holds_cons mem s 0 []).mp held).1
      rw [strtolLoop, last, show strtolDigit 0 = none from rfl]
      rfl
  | cons d rest ih =>
      obtain ⟨n, rfl⟩ := Nat.exists_eq_succ_of_ne_zero (Nat.ne_of_gt (Nat.lt_of_le_of_lt (Nat.zero_le _) enough))
      rw [List.map_cons, List.cons_append, holds_cons] at held
      have small := below d (by simp)
      have onward := ih (s + 1) (start * base + d) n held.2 (fun e member => below e (List.mem_cons_of_mem d member)) (Nat.lt_of_succ_lt_succ enough)
      rw [strtolLoop, held.1, (digit_char_read d (by omega)).1]
      simp only
      rw [if_neg (by omega), ← BitVec.ofNat_mul, ← BitVec.ofNat_add, onward, valueOf, valueOf, List.foldl_cons, List.length_cons,
        show s + 1 + rest.length = s + (rest.length + 1) by omega]

-- A text of digits, and one with a minus sign before them.
theorem strtol_digits (digits : List Nat) (s fuel : Nat) (held : HoldsAt mem s (digits.map digitChar ++ [0])) (below : ∀ d ∈ digits, d < base)
    (nonempty : digits ≠ []) (known : base = 8 ∨ base = 10 ∨ base = 16) (enough : digits.length < fuel) :
    strtol mem s base fuel = some (BitVec.ofNat 64 (valueOf base 0 digits), s + digits.length) := by
  obtain ⟨n, rfl⟩ := Nat.exists_eq_succ_of_ne_zero (Nat.ne_of_gt (Nat.lt_of_le_of_lt (Nat.zero_le _) enough))
  have loop := strtol_loop_spec mem base digits s 0 (n + 1) held below (by omega) enough
  have nonzero : ¬ base = 0 := by omega
  obtain ⟨d, rest, rfl⟩ := List.exists_cons_of_ne_nil nonempty
  rw [List.map_cons, List.cons_append, holds_cons] at held
  obtain ⟨_, blank, tab, plus, minus, _⟩ := digit_char_read d (by have small := below d (by simp); omega)
  have noPrefix : ¬ mem (s + 1) = chr 'x' := by
    cases rest with
    | nil =>
        rw [((holds_cons mem (s + 1) 0 []).mp held.2).1]
        decide
    | cons e rest =>
        rw [List.map_cons, List.cons_append, holds_cons] at held
        rw [held.2.1]
        exact (digit_char_read e (by have small := below e (by simp); omega)).2.2.2.2.2
  rw [← held.1] at blank tab plus minus
  simp only [strtol, skipBlanks, blank, tab, plus, minus, noPrefix, nonzero, or_self, if_false, and_false, false_and, decide_false, Option.bind_eq_bind, Option.bind_some]
  rw [show (0 : BitVec 64) = BitVec.ofNat 64 0 from rfl, loop]
  rfl

theorem strtol_negative (digits : List Nat) (s fuel : Nat) (held : HoldsAt mem s (chr '-' :: (digits.map digitChar ++ [0]))) (below : ∀ d ∈ digits, d < base)
    (known : base = 8 ∨ base = 10) (enough : digits.length < fuel) :
    strtol mem s base fuel = some (-BitVec.ofNat 64 (valueOf base 0 digits), s + (digits.length + 1)) := by
  obtain ⟨n, rfl⟩ := Nat.exists_eq_succ_of_ne_zero (Nat.ne_of_gt (Nat.lt_of_le_of_lt (Nat.zero_le _) enough))
  rw [holds_cons] at held
  have loop := strtol_loop_spec mem base digits (s + 1) 0 (n + 1) held.2 below (by omega) enough
  have nonzero : ¬ base = 0 := by omega
  have other : ¬ base = 16 := by omega
  simp only [strtol, skipBlanks, held.1, show ¬ chr '-' = chr ' ' by decide, show ¬ chr '-' = chr '	' by decide, nonzero, other, or_self, or_true, if_false, if_true,
    false_and, decide_true, Option.bind_eq_bind, Option.bind_some]
  rw [show (0 : BitVec 64) = BitVec.ofNat 64 0 from rfl, loop, show s + 1 + digits.length = s + (digits.length + 1) by omega]
  rfl

end Parse

section RoundTrip

-- %lld, %llx and %llo.
def longFormat (conv : UInt8) : List UInt8 := [37, 108, 108, conv]

theorem long_run {σ : Type} (putch : σ → UInt8 → σ) (s : σ) (n : BitVec 64) (conv : UInt8) (own : arity conv = some 1) (known : conv = chr 'd' ∨ conv = chr 'x' ∨ conv = chr 'o')
    (fuel : Nat) (out : List UInt8)
    (converts : convert putch (fun s fmt ap => vprintfmt putch (fuel + 4) s fmt ap 0) (longFormat conv) s conv { freshConversion with lflag := 2 } [.word n] 4 (fuel + 4) =
      .ok (out.foldl putch s, [], 4)) :
    vprintfmt putch (fuel + 5) s (longFormat conv) [.word n] 0 = .ok (out.foldl putch s) := by
  have switched : reswitch (longFormat conv) freshConversion [.word n] (0 + 1) (fuel + 4) = .ok (conv, { freshConversion with lflag := 2 }, [.word n], 4) := by
    rcases known with rfl | rfl | rfl <;> rfl
  rw [vprintfmt_percent putch (fuel + 4) s [.word n] [.word n] 0 4 conv { freshConversion with lflag := 2 } rfl switched, converts]
  rfl

def unsignedText (base : Nat) (n : BitVec 64) : List UInt8 := (numValues base 65 n.toNat).map digitChar

def signedText (n : BitVec 64) : List UInt8 := if n.toInt < 0 then chr '-' :: unsignedText 10 (-n) else unsignedText 10 n

def longText (conv : UInt8) (n : BitVec 64) : List UInt8 :=
  if conv = chr 'd' then signedText n else if conv = chr 'x' then unsignedText 16 n else unsignedText 8 n

theorem long_prints {σ : Type} (putch : σ → UInt8 → σ) (s : σ) (n : BitVec 64) (conv : UInt8) (known : conv = chr 'd' ∨ conv = chr 'x' ∨ conv = chr 'o')
    (fuel : Nat) (enough : 69 < fuel) : vprintfmt putch fuel s (longFormat conv) [.word n] 0 = .ok ((longText conv n).foldl putch s) := by
  obtain ⟨m, rfl⟩ := Nat.exists_eq_add_of_le' (show 5 ≤ fuel by omega)
  have reach : 64 < m + 4 := by omega
  rcases known with rfl | rfl | rfl
  · refine long_run putch s n (chr 'd') rfl (.inl rfl) m _ ?_
    refine Eq.trans (b := if n.toInt < 0
      then printnum putch (putch s (chr '-')) (-n).toNat 10 (-1) (chr ' ') (m + 4) >>= fun s => .ok (s, [], 4)
      else printnum putch s n.toNat 10 (-1) (chr ' ') (m + 4) >>= fun s => .ok (s, [], 4)) rfl ?_
    rw [longText, if_pos rfl, signedText]
    by_cases negative : n.toInt < 0
    · rw [if_pos negative, if_pos negative, printnum_text 10 (chr ' ') putch (by decide) _ _ _ _ reach, ok_bind, num_text_unpadded, List.foldl_cons, unsignedText]
    · rw [if_neg negative, if_neg negative, printnum_text 10 (chr ' ') putch (by decide) _ _ _ _ reach, ok_bind, num_text_unpadded, unsignedText]
  · refine long_run putch s n (chr 'x') rfl (.inr (.inl rfl)) m _ ?_
    refine Eq.trans (b := printnum putch s n.toNat 16 (-1) (chr ' ') (m + 4) >>= fun s => .ok (s, [], 4)) rfl ?_
    rw [longText, if_neg (by decide), if_pos rfl, printnum_text 16 (chr ' ') putch (by decide) _ _ _ _ reach, ok_bind, num_text_unpadded, unsignedText]
  · refine long_run putch s n (chr 'o') rfl (.inr (.inr rfl)) m _ ?_
    refine Eq.trans (b := printnum putch s n.toNat 8 (-1) (chr ' ') (m + 4) >>= fun s => .ok (s, [], 4)) rfl ?_
    rw [longText, if_neg (by decide), if_neg (by decide), printnum_text 8 (chr ' ') putch (by decide) _ _ _ _ reach, ok_bind, num_text_unpadded, unsignedText]

theorem unsigned_text_short (base m : Nat) (n : BitVec 64) (long : 2 ^ 64 ≤ base ^ (m + 1)) : (unsignedText base n).length ≤ m + 1 := by
  rw [unsignedText, List.length_map]
  exact values_length base m 65 n.toNat (Nat.lt_of_lt_of_le n.isLt long)

theorem long_text_short (conv : UInt8) (n : BitVec 64) : (longText conv n).length ≤ 22 := by
  have ten := fun n => unsigned_text_short 10 19 n (by decide)
  have hex := unsigned_text_short 16 15 n (by decide)
  have eight := unsigned_text_short 8 21 n (by decide)
  rw [longText]
  by_cases signed : conv = chr 'd'
  · rw [if_pos signed, signedText]
    by_cases negative : n.toInt < 0
    · have short := ten (-n)
      rw [if_pos negative, List.length_cons]
      omega
    · have short := ten n
      rw [if_neg negative]
      omega
  · rw [if_neg signed]
    by_cases sixteen : conv = chr 'x'
    · rw [if_pos sixteen]
      omega
    · rw [if_neg sixteen]
      omega

-- A text that fits stands in the buffer with its null.
theorem bounded_holds (mem : Bytes) (str size : Nat) (out : List UInt8) (fits : out.length < size) : HoldsAt (bounded mem str size out) str (out ++ [0]) := by
  have whole : min (size - 1) out.length = out.length := by omega
  rw [holds_append]
  refine ⟨fun i bound => ?_, fun i bound => ?_⟩
  · rw [bounded, whole, if_pos (by omega), Nat.add_sub_cancel_left, List.getD_eq_getElem?_getD, List.getElem?_eq_getElem bound]
    rfl
  · have first : i = 0 := by
      rw [List.length_singleton] at bound
      omega
    subst first
    rw [bounded, whole, if_neg (by omega), if_pos (by omega)]
    rfl

theorem read_unsigned (mem : Bytes) (s base fuel : Nat) (n : BitVec 64) (known : base = 8 ∨ base = 10 ∨ base = 16) (held : HoldsAt mem s (unsignedText base n ++ [0]))
    (enough : (unsignedText base n).length < fuel) : strtol mem s base fuel = some (n, s + (unsignedText base n).length) := by
  rw [unsignedText, List.length_map] at *
  rw [strtol_digits mem base (numValues base 65 n.toNat) s fuel held (values_below base 65 n.toNat (by omega)) (values_some base 64 n.toNat) known enough,
    values_value base 64 n.toNat (by omega) n.isLt, BitVec.ofNat_toNat, BitVec.setWidth_eq]

theorem read_signed (mem : Bytes) (s fuel : Nat) (n : BitVec 64) (held : HoldsAt mem s (signedText n ++ [0])) (enough : (signedText n).length < fuel) :
    strtol mem s 10 fuel = some (n, s + (signedText n).length) := by
  rw [signedText] at *
  by_cases negative : n.toInt < 0
  · rw [if_pos negative] at *
    rw [List.length_cons, unsignedText, List.length_map] at *
    rw [strtol_negative mem 10 (numValues 10 65 (-n).toNat) s fuel held (values_below 10 65 (-n).toNat (by decide)) (.inr rfl) (by omega),
      values_value 10 64 (-n).toNat (by decide) (-n).isLt, BitVec.ofNat_toNat, BitVec.setWidth_eq, BitVec.neg_neg]
  · rw [if_neg negative] at *
    exact read_unsigned mem s 10 fuel n (.inr (.inl rfl)) held enough

theorem digits_no_null (base k num : Nat) (positive : 0 < base) (hex : base ≤ 16) : 0 ∉ (numValues base k num).map digitChar := by
  intro member
  obtain ⟨d, inside, null⟩ := List.mem_map.mp member
  have small := values_below base k num positive d inside
  have read := (digit_char_read d (by omega)).1
  rw [null] at read
  cases read

theorem long_text_no_null (conv : UInt8) (n : BitVec 64) : 0 ∉ longText conv n := by
  rw [longText]
  by_cases signed : conv = chr 'd'
  · rw [if_pos signed, signedText]
    by_cases negative : n.toInt < 0
    · rw [if_pos negative]
      intro member
      cases List.mem_cons.mp member with
      | inl first => exact absurd first (by decide)
      | inr digit => exact digits_no_null 10 65 _ (by decide) (by decide) digit
    · rw [if_neg negative]
      exact digits_no_null 10 65 _ (by decide) (by decide)
  · rw [if_neg signed]
    by_cases sixteen : conv = chr 'x'
    · rw [if_pos sixteen]
      exact digits_no_null 16 65 _ (by decide) (by decide)
    · rw [if_neg sixteen]
      exact digits_no_null 8 65 _ (by decide) (by decide)

-- What snprintf prints for a number, strtol reads back, up to the null.
theorem strtol_snprintf (n : BitVec 64) (conv : UInt8) (base : Nat) (kind : (conv, base) ∈ [(chr 'd', 10), (chr 'x', 16), (chr 'o', 8)]) (mem : Bytes) (str size fuel : Nat)
    (large : 23 ≤ size) (named : str ≠ 0) (fits : str + size ≤ 2 ^ 64) (enough : 69 < fuel) :
    ∃ mem' out, snprintf fuel mem str size (longFormat conv) [.word n] = .ok (List.length out, mem') ∧ HoldsAt mem' str (out ++ [0]) ∧ 0 ∉ out ∧
      strtol mem' str base fuel = some (n, str + out.length) := by
  have short := long_text_short conv n
  have held := bounded_holds mem str size (longText conv n) (by omega)
  simp only [List.mem_cons, List.not_mem_nil, or_false, Prod.mk.injEq] at kind
  have known : conv = chr 'd' ∨ conv = chr 'x' ∨ conv = chr 'o' := by
    rcases kind with ⟨rfl, _⟩ | ⟨rfl, _⟩ | ⟨rfl, _⟩
    · exact .inl rfl
    · exact .inr (.inl rfl)
    · exact .inr (.inr rfl)
  have printed := vsnprintf_spec fuel mem str size (longFormat conv) [.word n] (longText conv n) (by omega) named fits (by omega) fun b =>
    long_prints sprintputch b n conv known fuel enough
  refine ⟨_, longText conv n, printed, held, long_text_no_null conv n, ?_⟩
  rcases kind with ⟨rfl, rfl⟩ | ⟨rfl, rfl⟩ | ⟨rfl, rfl⟩
  · rw [show longText (chr 'd') n = signedText n from rfl] at *
    exact read_signed _ str fuel n held (by omega)
  · rw [show longText (chr 'x') n = unsignedText 16 n from rfl] at *
    exact read_unsigned _ str 16 fuel n (.inr (.inr rfl)) held (by omega)
  · rw [show longText (chr 'o') n = unsignedText 8 n from rfl] at *
    exact read_unsigned _ str 8 fuel n (.inl rfl) held (by omega)

-- The least number, in decimals.
theorem strtol_snprintf_least : ∃ mem' out, snprintf 70 zeroBytes 4096 23 (longFormat (chr 'd')) [.word 0x8000000000000000] = .ok (List.length out, mem') ∧
    HoldsAt mem' 4096 (out ++ [0]) ∧ 0 ∉ out ∧ strtol mem' 4096 10 70 = some (0x8000000000000000, 4096 + out.length) :=
  strtol_snprintf 0x8000000000000000 (chr 'd') 10 (by simp) zeroBytes 4096 23 70 (by decide) (by decide) (by decide) (by decide)

end RoundTrip

end Ucore.Stdio
