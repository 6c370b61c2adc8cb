import Mathlib.Tactic.Common
import Ucore.Stdio.Printfmt

set_option autoImplicit false

namespace Ucore.Stdio

open Ucore.Lib

def isFlag (ch : UInt8) : Bool := isDigit ch ∨ ch = chr '-' ∨ ch = chr '*' ∨ ch = chr '.' ∨ ch = chr '#' ∨ ch = chr 'l'

-- The arguments of a conversion beside those for its stars; none if there is no such conversion.
def arity (ch : UInt8) : Option Nat :=
  if ch = chr '%' then some 0
  else if ch = chr 'c' ∨ ch = chr 'e' ∨ ch = chr 's' ∨ ch = chr 'd' ∨ ch = chr 'u' ∨ ch = chr 'o' ∨ ch = chr 'p' ∨ ch = chr 'x' then some 1
  else none

-- An argument list that matches the rest of a format. A conversion is a percent sign, flags and
-- a character that is no flag; where that is the end or unknown, the text is printed as it is. The
-- last list has the arguments of the conversions for error codes.
inductive Suits : List UInt8 → List VaArg → List VaArg → Prop where
  | done (ap : List VaArg) : Suits [] ap []
  | plain (c : UInt8) (rest : List UInt8) (ap errs : List VaArg) (other : c ≠ chr '%') (some : c ≠ 0) (later : Suits rest ap errs) :
      Suits (c :: rest) ap errs
  | conversion (flags : List UInt8) (conv : UInt8) (rest : List UInt8) (stars own ap errs : List VaArg) (each : ∀ f ∈ flags, isFlag f = true)
      (counted : stars.length = flags.count (chr '*')) (known : arity conv = some own.length)
      (strings : conv = chr 's' → ∀ v ∈ own, ∃ p, stringOf v = .ok p) (later : Suits rest ap errs) :
      Suits (chr '%' :: (flags ++ conv :: rest)) (stars ++ (own ++ ap)) (if conv = chr 'e' then own ++ errs else errs)
  | unknown (flags rest : List UInt8) (stars ap errs : List VaArg) (each : ∀ f ∈ flags, isFlag f = true)
      (counted : stars.length = flags.count (chr '*')) (stop : ∀ c tail, rest = c :: tail → isFlag c = false ∧ arity c = none)
      (later : Suits rest ap errs) : Suits (chr '%' :: (flags ++ rest)) (stars ++ ap) errs

section Format

variable (fmt : List UInt8)

-- The rest of the format from a place on.
structure Rest (i : Nat) (suffix : List UInt8) : Prop where
  inside : i ≤ fmt.length
  drop : fmt.drop i = suffix

variable {fmt}

theorem rest_cons (i : Nat) (c : UInt8) (tail : List UInt8) (rest : Rest fmt i (c :: tail)) : fmtAt fmt i = .ok c ∧ Rest fmt (i + 1) tail := by
  have bound : i < fmt.length := by
    by_contra past
    have nothing := rest.drop
    rw [List.drop_eq_nil_of_le (by omega)] at nothing
    cases nothing
  have split := rest.drop
  rw [List.drop_eq_getElem_cons bound] at split
  obtain ⟨head, later⟩ := List.cons_eq_cons.mp split
  exact ⟨by rw [fmtAt, dif_pos bound]; exact congrArg _ head, bound, later⟩

theorem rest_nil (i : Nat) (rest : Rest fmt i []) : fmtAt fmt i = .ok 0 := by
  have past := List.drop_eq_nil_iff.mp rest.drop
  have last : i = fmt.length := Nat.le_antisymm rest.inside past
  rw [fmtAt, dif_neg (by omega), if_pos last]

theorem rest_head (i : Nat) (suffix : List UInt8) (rest : Rest fmt i suffix) : fmtAt fmt i = .ok (suffix.headD 0) := by
  cases suffix with
  | nil => exact rest_nil i rest
  | cons c tail => exact (rest_cons i c tail rest).1

theorem rest_append (i : Nat) (first second : List UInt8) (rest : Rest fmt i (first ++ second)) : Rest fmt (i + first.length) second := by
  induction first generalizing i with
  | nil => exact rest
  | cons c tail ih =>
      have later := ih (i + 1) (rest_cons i c (tail ++ second) rest).2
      rwa [List.length_cons, show i + (tail.length + 1) = i + 1 + tail.length by omega]

theorem width_loop_spec (digits after : List UInt8) (i : Nat) (ch : UInt8) (precision : Int) (rest : Rest fmt i (digits ++ after))
    (each : ∀ d ∈ digits, isDigit d = true) (stop : isDigit (after.headD 0) = false) :
    ∃ width, ∀ fuel, digits.length < fuel → widthLoop fmt i ch precision fuel = .ok (width, i + digits.length) := by
  induction digits generalizing i ch precision with
  | nil =>
      have read := rest_head i after rest
      refine ⟨toInt (precision * 10 + ch.toNat - (chr '0').toNat), fun fuel enough => ?_⟩
      obtain ⟨n, rfl⟩ := Nat.exists_eq_succ_of_ne_zero (Nat.ne_of_gt enough)
      simp only [widthLoop, read, ok_bind, stop, Bool.not_false, if_true, pure_ok, List.length_nil, Nat.add_zero]
  | cons d tail ih =>
      obtain ⟨read, later⟩ := rest_cons i d (tail ++ after) rest
      obtain ⟨width, onward⟩ := ih (i + 1) d (toInt (precision * 10 + ch.toNat - (chr '0').toNat)) later
        (fun e member => each e (List.mem_cons_of_mem d member))
      refine ⟨width, fun fuel enough => ?_⟩
      obtain ⟨n, rfl⟩ := Nat.exists_eq_succ_of_ne_zero (Nat.ne_of_gt (Nat.lt_of_le_of_lt (Nat.zero_le _) enough))
      simp only [widthLoop, read, ok_bind, each d (by simp), Bool.not_true, Bool.false_eq_true, if_false, onward n (Nat.lt_of_succ_lt_succ enough), List.length_cons]
      rw [show i + 1 + tail.length = i + (tail.length + 1) by omega]

theorem digit_not_star (d : UInt8) (digit : isDigit d = true) : d ≠ chr '*' := by
  rintro rfl
  revert digit
  decide

theorem flag_not_digit (c : UInt8) (plain : isFlag c = false) : isDigit c = false := by
  by_contra digit
  simp [isFlag, digit] at plain

theorem drop_while_head (flags after : List UInt8) (stop : isDigit (after.headD 0) = false) :
    isDigit ((flags.dropWhile isDigit ++ after).headD 0) = false := by
  induction flags with
  | nil => exact stop
  | cons f rest ih =>
      by_cases digit : isDigit f = true
      · rw [List.dropWhile_cons_of_pos digit]
        exact ih
      · rw [List.dropWhile_cons_of_neg digit]
        exact Bool.eq_false_iff.mpr digit

theorem reswitch_stops (after : List UInt8) (c : Conversion) (stars ap : List VaArg) (i : Nat) (rest : Rest fmt i ([] ++ after))
    (stop : isFlag (after.headD 0) = false) (counted : stars.length = ([] : List UInt8).count (chr '*')) (fuel : Nat) (enough : 0 < fuel) :
    reswitch fmt c (stars ++ ap) i fuel = .ok (after.headD 0, c, ap, i + ([] : List UInt8).length + 1) := by
  obtain ⟨n, rfl⟩ := Nat.exists_eq_succ_of_ne_zero (Nat.ne_of_gt enough)
  have read := rest_head i after rest
  have none : stars = [] := List.length_eq_zero_iff.mp counted
  simp only [isFlag, Bool.decide_or, Bool.or_eq_false_iff, decide_eq_false_iff_not, Bool.not_eq_true] at stop
  obtain ⟨digit, minus, star, dot, hash, ell⟩ := stop
  have zero : ¬ after.headD 0 = chr '0' := fun same => by
    rw [same] at digit
    revert digit
    decide
  simp only [reswitch, read, ok_bind, if_neg minus, if_neg zero, digit, Bool.false_eq_true, if_false, if_neg star, if_neg dot, if_neg hash, if_neg ell,
    pure_ok, none, List.nil_append, List.length_nil, Nat.add_zero]

-- The flags are read up to the first character that is none.
theorem reswitch_spec (bound : Nat) (flags after : List UInt8) (c : Conversion) (stars ap : List VaArg) (i : Nat) (rest : Rest fmt i (flags ++ after))
    (each : ∀ f ∈ flags, isFlag f = true) (stop : isFlag (after.headD 0) = false) (counted : stars.length = flags.count (chr '*'))
    (short : flags.length ≤ bound) :
    ∃ c', ∀ fuel, bound < fuel → reswitch fmt c (stars ++ ap) i fuel = .ok (after.headD 0, c', ap, i + flags.length + 1) := by
  induction bound generalizing flags c stars i with
  | zero =>
      obtain rfl := List.length_eq_zero_iff.mp (Nat.le_zero.mp short)
      exact ⟨c, fun fuel enough => reswitch_stops after c stars ap i rest stop counted fuel enough⟩
  | succ bound ih =>
      cases flags with
      | nil => exact ⟨c, fun fuel enough => reswitch_stops after c stars ap i rest stop counted fuel (by omega)⟩
      | cons f flags =>
          obtain ⟨read, later⟩ := rest_cons i f (flags ++ after) rest
          have others : ∀ g ∈ flags, isFlag g = true := fun g member => each g (List.mem_cons_of_mem f member)
          have fewer : flags.length ≤ bound := Nat.le_of_succ_le_succ short
          have place : i + 1 + flags.length + 1 = i + (f :: flags).length + 1 := by
            rw [List.length_cons]
            omega
          -- A flag that is no digit and no star.
          have onward : f ≠ chr '*' → ∀ c, ∃ c', ∀ fuel, bound < fuel →
              reswitch fmt c (stars ++ ap) (i + 1) fuel = .ok (after.headD 0, c', ap, i + (f :: flags).length + 1) := by
            intro other c
            rw [List.count_cons_of_ne other] at counted
            rw [← place]
            exact ih flags c stars (i + 1) later others counted fewer
          by_cases minus : f = chr '-'
          · obtain ⟨c', next⟩ := onward (by rw [minus]; decide) { c with padc := chr '-' }
            refine ⟨c', fun fuel enough => ?_⟩
            obtain ⟨n, rfl⟩ := Nat.exists_eq_succ_of_ne_zero (Nat.ne_of_gt (Nat.lt_of_le_of_lt (Nat.zero_le _) enough))
            simp only [reswitch, read, ok_bind, if_pos minus, next n (Nat.lt_of_succ_lt_succ enough)]
          · by_cases zero : f = chr '0'
            · obtain ⟨c', next⟩ := onward (by rw [zero]; decide) { c with padc := chr '0' }
              refine ⟨c', fun fuel enough => ?_⟩
              obtain ⟨n, rfl⟩ := Nat.exists_eq_succ_of_ne_zero (Nat.ne_of_gt (Nat.lt_of_le_of_lt (Nat.zero_le _) enough))
              simp only [reswitch, read, ok_bind, if_neg minus, if_pos zero, next n (Nat.lt_of_succ_lt_succ enough)]
            · by_cases digit : isDigit f = true
              · have split : flags = flags.takeWhile isDigit ++ flags.dropWhile isDigit := List.takeWhile_append_dropWhile.symm
                have numbers : ∀ d ∈ flags.takeWhile isDigit, isDigit d = true := fun d member => List.all_eq_true.mp List.all_takeWhile d member
                have long : flags.length = (flags.takeWhile isDigit).length + (flags.dropWhile isDigit).length := by
                  rw [← List.length_append, ← split]
                rw [split, List.append_assoc] at later
                obtain ⟨width, loop⟩ := width_loop_spec _ _ (i + 1) f 0 later numbers (drop_while_head flags after (flag_not_digit _ stop))
                have none : (flags.takeWhile isDigit).count (chr '*') = 0 :=
                  List.count_eq_zero_of_not_mem fun member => digit_not_star _ (numbers _ member) rfl
                rw [List.count_cons_of_ne (digit_not_star f digit), split, List.count_append, none, Nat.zero_add] at counted
                obtain ⟨c', next⟩ := ih (flags.dropWhile isDigit) { c with precision := width }.processPrecision stars _ (rest_append _ _ _ later)
                  (fun g member => others g (List.dropWhile_subset isDigit member)) counted (by omega)
                rw [show i + 1 + (flags.takeWhile isDigit).length + (flags.dropWhile isDigit).length + 1 = i + (f :: flags).length + 1 by
                  rw [← place, long, Nat.add_assoc (i + 1)]] at next
                refine ⟨c', fun fuel enough => ?_⟩
                obtain ⟨n, rfl⟩ := Nat.exists_eq_succ_of_ne_zero (Nat.ne_of_gt (Nat.lt_of_le_of_lt (Nat.zero_le _) enough))
                simp only [reswitch, read, ok_bind, if_neg minus, if_neg zero, if_pos digit, loop n (by omega), next n (Nat.lt_of_succ_lt_succ enough)]
              · by_cases star : f = chr '*'
                · cases stars with
                  | nil => rw [star, List.count_cons_self] at counted; cases counted
                  | cons v stars =>
                      rw [star, List.count_cons_self, List.length_cons] at counted
                      obtain ⟨c', next⟩ := ih flags { c with precision := v.int }.processPrecision stars (i + 1) later others (Nat.succ.inj counted) fewer
                      rw [place] at next
                      refine ⟨c', fun fuel enough => ?_⟩
                      obtain ⟨n, rfl⟩ := Nat.exists_eq_succ_of_ne_zero (Nat.ne_of_gt (Nat.lt_of_le_of_lt (Nat.zero_le _) enough))
                      simp only [reswitch, read, ok_bind, if_neg minus, if_neg zero, if_neg digit, if_pos star, vaArg, List.cons_append,
                        next n (Nat.lt_of_succ_lt_succ enough)]
                · by_cases dot : f = chr '.'
                  · obtain ⟨c', next⟩ := onward star (if c.width < 0 then { c with width := 0 } else c)
                    refine ⟨c', fun fuel enough => ?_⟩
                    obtain ⟨n, rfl⟩ := Nat.exists_eq_succ_of_ne_zero (Nat.ne_of_gt (Nat.lt_of_le_of_lt (Nat.zero_le _) enough))
                    simp only [reswitch, read, ok_bind, if_neg minus, if_neg zero, if_neg digit, if_neg star, if_pos dot, next n (Nat.lt_of_succ_lt_succ enough)]
                  · by_cases hash : f = chr '#'
                    · obtain ⟨c', next⟩ := onward star { c with altflag := true }
                      refine ⟨c', fun fuel enough => ?_⟩
                      obtain ⟨n, rfl⟩ := Nat.exists_eq_succ_of_ne_zero (Nat.ne_of_gt (Nat.lt_of_le_of_lt (Nat.zero_le _) enough))
                      simp only [reswitch, read, ok_bind, if_neg minus, if_neg zero, if_neg digit, if_neg star, if_neg dot, if_pos hash,
                        next n (Nat.lt_of_succ_lt_succ enough)]
                    · have ell : f = chr 'l' := by
                        have flag := each f (by simp)
                        simpa [isFlag, digit, minus, star, dot, hash] using flag
                      obtain ⟨c', next⟩ := onward star { c with lflag := toInt (c.lflag + 1) }
                      refine ⟨c', fun fuel enough => ?_⟩
                      obtain ⟨n, rfl⟩ := Nat.exists_eq_succ_of_ne_zero (Nat.ne_of_gt (Nat.lt_of_le_of_lt (Nat.zero_le _) enough))
                      simp only [reswitch, read, ok_bind, if_neg minus, if_neg zero, if_neg digit, if_neg star, if_neg dot, if_neg hash, if_pos ell,
                        next n (Nat.lt_of_succ_lt_succ enough)]

theorem backtrack_spec (i k : Nat) (flags after : List UInt8) (start : Rest fmt i (chr '%' :: (flags ++ after))) (plain : ∀ f ∈ flags, f ≠ chr '%')
    (inside : k ≤ flags.length) : backtrack fmt (i + 1 + k) = .ok (i + 1) := by
  obtain ⟨percent, later⟩ := rest_cons i _ _ start
  induction k with
  | zero => simp only [backtrack, percent, ok_bind, if_true, pure_ok]
  | succ k ih =>
      have split : flags = flags.take k ++ flags.drop k := (List.take_append_drop k flags).symm
      have front : (flags.take k).length = k := List.length_take_of_le (by omega)
      rw [split, List.append_assoc] at later
      have here := rest_append (i + 1) _ _ later
      rw [front, List.drop_eq_getElem_cons (show k < flags.length by omega), List.cons_append] at here
      have read := (rest_cons _ _ _ here).1
      have other := plain _ (List.getElem_mem (show k < flags.length by omega))
      show backtrack fmt (i + 1 + k + 1) = _
      rw [backtrack, read, ok_bind, if_neg other, ih (by omega)]

end Format

section Output

variable (base : Nat) (padc : UInt8)

-- What printnum puts out: pads and digits.
def numDigits : Nat → Nat → List UInt8
  | 0, _ => []
  | k + 1, num => (if base ≤ num then numDigits k (num / base) else []) ++ [digitChars.getD (num % base) 0]

def numPads : Nat → Nat → Int → Nat
  | 0, _, _ => 0
  | k + 1, num, width => if base ≤ num then numPads k (num / base) (toInt (width - 1)) else (toInt (width - 1)).toNat

def numText (num : Nat) (width : Int) : List UInt8 := List.replicate (numPads base 65 num width) padc ++ numDigits base 65 num

theorem put_pads_spec {σ : Type} (putch : σ → UInt8 → σ) (s : σ) (n : Nat) : putPads putch padc s n = (List.replicate n padc).foldl putch s := by
  induction n generalizing s with
  | zero => rfl
  | succ n ih => rw [putPads, ih, List.replicate_succ, List.foldl_cons]

theorem printnum_spec {σ : Type} (putch : σ → UInt8 → σ) (two : 2 ≤ base) (k num : Nat) (width : Int) (fuel : Nat) (s : σ) (small : num < 2 ^ k) (enough : k < fuel) :
    printnum putch s num base width padc fuel = .ok ((List.replicate (numPads base (k + 1) num width) padc ++ numDigits base (k + 1) num).foldl putch s) := by
  induction k generalizing num width fuel s with
  | zero =>
      obtain ⟨n, rfl⟩ := Nat.exists_eq_succ_of_ne_zero (Nat.ne_of_gt enough)
      have below : ¬ base ≤ num := by omega
      simp only [printnum, if_neg below, ok_bind, pure_ok, numPads, numDigits, List.nil_append, put_pads_spec, List.foldl_append, List.foldl_cons, List.foldl_nil]
  | succ k ih =>
      obtain ⟨n, rfl⟩ := Nat.exists_eq_succ_of_ne_zero (Nat.ne_of_gt (Nat.lt_of_le_of_lt (Nat.zero_le _) enough))
      by_cases more : base ≤ num
      · have half : num / base < 2 ^ k := by
          have less : num / base ≤ num / 2 := Nat.div_le_div_left two (by decide)
          rw [Nat.pow_succ] at small
          omega
        have front := ih (num / base) (toInt (width - 1)) n s half (Nat.lt_of_succ_lt_succ enough)
        rw [numPads, numDigits, if_pos more, if_pos more]
        simp only [printnum, if_pos more, front, ok_bind, pure_ok, ← List.append_assoc, List.foldl_append, List.foldl_cons, List.foldl_nil]
      · rw [numPads, numDigits, if_neg more, if_neg more]
        simp only [printnum, if_neg more, ok_bind, pure_ok, List.nil_append, put_pads_spec, List.foldl_append, List.foldl_cons, List.foldl_nil]

theorem printnum_text {σ : Type} (putch : σ → UInt8 → σ) (two : 2 ≤ base) (num : BitVec 64) (width : Int) (fuel : Nat) (s : σ) (enough : 64 < fuel) :
    printnum putch s num.toNat base width padc fuel = .ok ((numText base padc num.toNat width).foldl putch s) :=
  printnum_spec base padc putch two 64 num.toNat width fuel s num.isLt enough

-- What the loop over a string puts out, and the width after it.
theorem string_loop_spec (altflag : Bool) (p : List UInt8) (precision width : Int) :
    ∃ (out : List UInt8) (left : Int), ∀ {σ : Type} (putch : σ → UInt8 → σ) (s : σ), stringLoop putch altflag p precision width s = (out.foldl putch s, left) := by
  induction p generalizing precision width with
  | nil => exact ⟨[], width, fun putch s => rfl⟩
  | cons ch rest ih =>
      by_cases free : precision < 0
      · obtain ⟨out, left, onward⟩ := ih precision (toInt (width - 1))
        refine ⟨(if altflag ∧ (ch < chr ' ' ∨ chr '~' < ch) then chr '?' else ch) :: out, left, fun putch s => ?_⟩
        rw [stringLoop, if_pos free, onward, List.foldl_cons]
      · by_cases room : 0 ≤ precision - 1
        · obtain ⟨out, left, onward⟩ := ih (precision - 1) (toInt (width - 1))
          refine ⟨(if altflag ∧ (ch < chr ' ' ∨ chr '~' < ch) then chr '?' else ch) :: out, left, fun putch s => ?_⟩
          rw [stringLoop, if_neg free, if_pos room, onward, List.foldl_cons]
        · refine ⟨[], width, fun putch s => ?_⟩
          rw [stringLoop, if_neg free, if_neg room, List.foldl_nil]

theorem print_string_spec (c : Conversion) (p : List UInt8) :
    ∃ out : List UInt8, ∀ {σ : Type} (putch : σ → UInt8 → σ) (s : σ), printString putch c p s = out.foldl putch s := by
  by_cases padded : 0 < c.width ∧ c.padc ≠ chr '-'
  · let width := toInt (c.width - strnlen p (c.precision % 2 ^ 64).toNat)
    obtain ⟨out, left, loop⟩ := string_loop_spec c.altflag p c.precision (if 0 < width then 0 else width)
    refine ⟨List.replicate width.toNat c.padc ++ (out ++ List.replicate left.toNat (chr ' ')), fun putch s => ?_⟩
    simp only [printString, padded, ne_eq, not_false_eq_true, and_self, if_true, true_and, put_pads_spec]
    rw [loop, List.foldl_append, List.foldl_append]
  · obtain ⟨out, left, loop⟩ := string_loop_spec c.altflag p c.precision c.width
    refine ⟨out ++ List.replicate left.toNat (chr ' '), fun putch s => ?_⟩
    simp only [printString, padded, if_false, false_and, put_pads_spec]
    rw [loop, List.foldl_append]

end Output

end Ucore.Stdio
