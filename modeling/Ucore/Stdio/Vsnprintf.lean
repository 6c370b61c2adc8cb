import Ucore.Stdio.PrintfmtRuns

set_option autoImplicit false

namespace Ucore.Stdio

open Ucore.Lib

-- The argument whose negation is no int.
def minInt : Int := -2 ^ 31

-- A format and its arguments print what a list says, whatever the characters are put into.
def Prints (fmt : List UInt8) (ap : List VaArg) : Prop :=
  ∃ (bound : Nat) (out : List UInt8), ∀ fuel, bound ≤ fuel → ∀ (σ : Type) (putch : σ → UInt8 → σ) (s : σ),
    vprintfmt putch fuel s fmt ap 0 = .ok (out.foldl putch s)

-- The formats that the conversion for error codes is made of.
structure ErrorFormats : Prop where
  number : ∀ v, Prints (chars "error %d") [v]
  message : ∀ p, Prints (chars "%s") [.text 1 p]

section Conversions

variable {fmt : List UInt8}

theorem known_cases (conv : UInt8) (own : List VaArg) (known : arity conv = some own.length) :
    (conv = chr '%' ∧ own = []) ∨ ∃ v, own = [v] ∧
      (conv = chr 'c' ∨ conv = chr 'e' ∨ conv = chr 's' ∨ conv = chr 'd' ∨ conv = chr 'u' ∨ conv = chr 'o' ∨ conv = chr 'p' ∨ conv = chr 'x') := by
  by_cases percent : conv = chr '%'
  · rw [arity, if_pos percent] at known
    exact .inl ⟨percent, List.length_eq_zero_iff.mp (Option.some.inj known).symm⟩
  · rw [arity, if_neg percent] at known
    by_cases one : conv = chr 'c' ∨ conv = chr 'e' ∨ conv = chr 's' ∨ conv = chr 'd' ∨ conv = chr 'u' ∨ conv = chr 'o' ∨ conv = chr 'p' ∨ conv = chr 'x'
    · rw [if_pos one] at known
      obtain ⟨v, single⟩ := List.length_eq_one_iff.mp (Option.some.inj known).symm
      exact .inr ⟨v, single, one⟩
    · rw [if_neg one] at known
      cases known

theorem known_no_flag (conv : UInt8) (own : List VaArg) (known : arity conv = some own.length) : isFlag conv = false := by
  rcases known_cases conv own known with ⟨rfl, rfl⟩ | ⟨v, rfl, rfl | rfl | rfl | rfl | rfl | rfl | rfl | rfl⟩
  all_goals decide

-- A conversion other than for an error code.
theorem convert_spec (conv : UInt8) (c : Conversion) (own ap : List VaArg) (i : Nat) (known : arity conv = some own.length) (other : conv ≠ chr 'e')
    (strings : conv = chr 's' → ∀ v ∈ own, ∃ p, stringOf v = .ok p) :
    ∃ out : List UInt8, ∀ fuel, 64 < fuel → ∀ (σ : Type) (putch : σ → UInt8 → σ) (again : σ → List UInt8 → List VaArg → Except PrintFault σ) (s : σ),
      convert putch again fmt s conv c (own ++ ap) i fuel = .ok (out.foldl putch s, ap, i) := by
  rcases known_cases conv own known with ⟨rfl, rfl⟩ | ⟨v, rfl, rfl | rfl | rfl | rfl | rfl | rfl | rfl | rfl⟩
  · exact ⟨[chr '%'], fun fuel enough σ putch again s => rfl⟩
  · exact ⟨[UInt8.ofNat v.value.toNat], fun fuel enough σ putch again s => rfl⟩
  · exact absurd rfl other
  · obtain ⟨p, string⟩ := strings rfl v (by simp)
    obtain ⟨out, printed⟩ := print_string_spec c p
    refine ⟨out, fun fuel enough σ putch again s => ?_⟩
    exact Eq.trans (b := stringOf v >>= fun p => .ok (printString putch c p s, ap, i)) rfl (by rw [string, ok_bind, printed putch s])
  · by_cases negative : (getint v c.lflag).toInt < 0
    · refine ⟨chr '-' :: numText 10 c.padc (-getint v c.lflag).toNat c.width, fun fuel enough σ putch again s => ?_⟩
      refine Eq.trans (b := if (getint v c.lflag).toInt < 0
        then printnum putch (putch s (chr '-')) (-getint v c.lflag).toNat 10 c.width c.padc fuel >>= fun s => .ok (s, ap, i)
        else printnum putch s (getint v c.lflag).toNat 10 c.width c.padc fuel >>= fun s => .ok (s, ap, i)) rfl ?_
      rw [if_pos negative, printnum_text 10 c.padc putch (by decide) _ _ _ _ enough, ok_bind, List.foldl_cons]
    · refine ⟨numText 10 c.padc (getint v c.lflag).toNat c.width, fun fuel enough σ putch again s => ?_⟩
      refine Eq.trans (b := if (getint v c.lflag).toInt < 0
        then printnum putch (putch s (chr '-')) (-getint v c.lflag).toNat 10 c.width c.padc fuel >>= fun s => .ok (s, ap, i)
        else printnum putch s (getint v c.lflag).toNat 10 c.width c.padc fuel >>= fun s => .ok (s, ap, i)) rfl ?_
      rw [if_neg negative, printnum_text 10 c.padc putch (by decide) _ _ _ _ enough, ok_bind]
  · refine ⟨numText 10 c.padc (getuint v c.lflag).toNat c.width, fun fuel enough σ putch again s => ?_⟩
    refine Eq.trans (b := printnum putch s (getuint v c.lflag).toNat 10 c.width c.padc fuel >>= fun s => .ok (s, ap, i)) rfl ?_
    rw [printnum_text 10 c.padc putch (by decide) _ _ _ _ enough, ok_bind]
  · refine ⟨numText 8 c.padc (getuint v c.lflag).toNat c.width, fun fuel enough σ putch again s => ?_⟩
    refine Eq.trans (b := printnum putch s (getuint v c.lflag).toNat 8 c.width c.padc fuel >>= fun s => .ok (s, ap, i)) rfl ?_
    rw [printnum_text 8 c.padc putch (by decide) _ _ _ _ enough, ok_bind]
  · refine ⟨chr '0' :: chr 'x' :: numText 16 c.padc v.value.toNat c.width, fun fuel enough σ putch again s => ?_⟩
    refine Eq.trans (b := printnum putch (putch (putch s (chr '0')) (chr 'x')) v.value.toNat 16 c.width c.padc fuel >>= fun s => .ok (s, ap, i)) rfl ?_
    rw [printnum_text 16 c.padc putch (by decide) _ _ _ _ enough, ok_bind, List.foldl_cons, List.foldl_cons]
  · refine ⟨numText 16 c.padc (getuint v c.lflag).toNat c.width, fun fuel enough σ putch again s => ?_⟩
    refine Eq.trans (b := printnum putch s (getuint v c.lflag).toNat 16 c.width c.padc fuel >>= fun s => .ok (s, ap, i)) rfl ?_
    rw [printnum_text 16 c.padc putch (by decide) _ _ _ _ enough, ok_bind]

theorem flag_is_text (f : UInt8) (flag : isFlag f = true) : f ≠ chr '%' ∧ f ≠ 0 := by
  constructor
  · rintro rfl
    revert flag
    decide
  · rintro rfl
    revert flag
    decide

-- An unknown conversion prints the percent sign and goes on behind it.
theorem convert_unknown {σ : Type} (putch : σ → UInt8 → σ) (again : σ → List UInt8 → List VaArg → Except PrintFault σ) (s : σ) (ch : UInt8) (c : Conversion)
    (ap : List VaArg) (i fuel : Nat) (unknown : arity ch = none) :
    convert putch again fmt s ch c ap i fuel = backtrack fmt (i - 1) >>= fun i => .ok (putch s (chr '%'), ap, i) := by
  have percent : ¬ ch = chr '%' := fun same => by
    rw [arity, if_pos same] at unknown
    cases unknown
  rw [arity, if_neg percent] at unknown
  have none : ¬ (ch = chr 'c' ∨ ch = chr 'e' ∨ ch = chr 's' ∨ ch = chr 'd' ∨ ch = chr 'u' ∨ ch = chr 'o' ∨ ch = chr 'p' ∨ ch = chr 'x') := fun one => by
    rw [if_pos one] at unknown
    cases unknown
  simp only [not_or] at none
  obtain ⟨c1, c2, c3, c4, c5, c6, c7, c8⟩ := none
  simp only [convert, if_neg c1, if_neg c2, if_neg c3, if_neg c4, if_neg c5, if_neg c6, if_neg c7, if_neg c8, if_neg percent, pure_ok]

theorem convert_error {σ : Type} (putch : σ → UInt8 → σ) (again : σ → List UInt8 → List VaArg → Except PrintFault σ) (s : σ) (c : Conversion) (v : VaArg)
    (ap : List VaArg) (i fuel : Nat) :
    convert putch again fmt s (chr 'e') c (v :: ap) i fuel = printError again s v.int >>= fun s => .ok (s, ap, i) := rfl

-- What the conversion for an error code prints; the negation of the least int is negative.
theorem print_error_spec (nested : ErrorFormats) (err : Int) (fits : minInt ≤ err ∧ err < 2 ^ 31) :
    ∃ (bound : Nat) (result : Except PrintFault (List UInt8)),
      (err = minInt → result = .error .badErrorIndex) ∧ (err ≠ minInt → ∃ out, result = .ok out) ∧
      ∀ fuel, bound ≤ fuel → ∀ (σ : Type) (putch : σ → UInt8 → σ) (s : σ),
        printError (fun s fmt ap => vprintfmt putch fuel s fmt ap 0) s err = result.map fun out => out.foldl putch s := by
  obtain ⟨low, high⟩ := fits
  simp only [minInt] at low
  by_cases least : err = minInt
  · refine ⟨0, .error .badErrorIndex, fun _ => rfl, fun other => absurd least other, fun fuel _ σ putch s => ?_⟩
    subst least
    rfl
  · have positive : 0 ≤ (if err < 0 then toInt (-err) else err) := by
      simp only [minInt] at least
      split
      · rw [toInt, Int.bmod_eq_of_le (by omega) (by omega)]
        omega
      · omega
    by_cases large : maxError < (if err < 0 then toInt (-err) else err)
    · obtain ⟨bound, out, prints⟩ := nested.number (.word (BitVec.ofInt 64 (if err < 0 then toInt (-err) else err)))
      refine ⟨bound, .ok out, fun same => absurd same least, fun _ => ⟨out, rfl⟩, fun fuel enough σ putch s => ?_⟩
      simp only [printError, if_pos large]
      exact prints fuel enough σ putch s
    · cases message : errorString (if err < 0 then toInt (-err) else err) with
      | none =>
          obtain ⟨bound, out, prints⟩ := nested.number (.word (BitVec.ofInt 64 (if err < 0 then toInt (-err) else err)))
          refine ⟨bound, .ok out, fun same => absurd same least, fun _ => ⟨out, rfl⟩, fun fuel enough σ putch s => ?_⟩
          simp only [printError, if_neg large, decide_eq_true positive, check_true, ok_bind, message]
          exact prints fuel enough σ putch s
      | some p =>
          obtain ⟨bound, out, prints⟩ := nested.message p
          refine ⟨bound, .ok out, fun same => absurd same least, fun _ => ⟨out, rfl⟩, fun fuel enough σ putch s => ?_⟩
          simp only [printError, if_neg large, decide_eq_true positive, check_true, ok_bind, message]
          exact prints fuel enough σ putch s

theorem int_bounds (v : VaArg) : minInt ≤ v.int ∧ v.int < 2 ^ 31 := by
  have low := BitVec.le_toInt (v.value.setWidth 32)
  have high := BitVec.toInt_lt (x := v.value.setWidth 32)
  simp only [minInt, VaArg.int]
  omega

end Conversions

section Runs

variable {fmt : List UInt8}

-- From a place of the format on, the run stops at an error code whose negation is no int, or
-- prints a list.
def Emits (fmt : List UInt8) (ap errs : List VaArg) (i : Nat) : Prop :=
  ∃ (bound : Nat) (result : Except PrintFault (List UInt8)),
    ((∃ e ∈ errs, e.int = minInt) → result = .error .badErrorIndex) ∧ ((∀ e ∈ errs, e.int ≠ minInt) → ∃ out, result = .ok out) ∧
    ∀ fuel, bound ≤ fuel → ∀ (σ : Type) (putch : σ → UInt8 → σ) (s : σ), vprintfmt putch fuel s fmt ap i = result.map fun out => out.foldl putch s

theorem vprintfmt_plain {σ : Type} (putch : σ → UInt8 → σ) (fuel : Nat) (s : σ) (ap : List VaArg) (i : Nat) (c : UInt8) (read : fmtAt fmt i = .ok c)
    (other : c ≠ chr '%') (char : c ≠ 0) : vprintfmt putch (fuel + 1) s fmt ap i = vprintfmt putch fuel (putch s c) fmt ap (i + 1) := by
  simp only [vprintfmt, read, ok_bind, if_pos other, if_neg char]

theorem vprintfmt_percent {σ : Type} (putch : σ → UInt8 → σ) (fuel : Nat) (s : σ) (ap ap' : List VaArg) (i j : Nat) (ch : UInt8) (c : Conversion)
    (read : fmtAt fmt i = .ok (chr '%')) (switched : reswitch fmt freshConversion ap (i + 1) fuel = .ok (ch, c, ap', j)) :
    vprintfmt putch (fuel + 1) s fmt ap i =
      (convert putch (fun s fmt ap => vprintfmt putch fuel s fmt ap 0) fmt s ch c ap' j fuel >>= fun next => vprintfmt putch fuel next.1 fmt next.2.1 next.2.2) := by
  simp only [vprintfmt, read, ok_bind, ne_eq, not_true_eq_false, if_false, switched]

theorem map_again {σ : Type} (putch : σ → UInt8 → σ) (s : σ) (before : List UInt8) (result : Except PrintFault (List UInt8)) :
    (result.map fun out => out.foldl putch (before.foldl putch s)) = (result.map fun out => before ++ out).map fun out => out.foldl putch s := by
  cases result with
  | error fault => rfl
  | ok out => simp only [Except.map, List.foldl_append]

-- A step that prints a list, and the run after it.
theorem emits_after (ap ap' errs : List VaArg) (i j bound : Nat) (before : List UInt8) (later : Emits fmt ap' errs j)
    (step : ∀ fuel, bound ≤ fuel → ∀ (σ : Type) (putch : σ → UInt8 → σ) (s : σ),
      vprintfmt putch (fuel + 1) s fmt ap i = vprintfmt putch fuel (before.foldl putch s) fmt ap' j) : Emits fmt ap errs i := by
  obtain ⟨reach, result, stops, prints, onward⟩ := later
  refine ⟨max bound reach + 1, result.map fun out => before ++ out, fun bad => by rw [stops bad]; rfl, fun good => ?_, fun fuel enough σ putch s => ?_⟩
  · obtain ⟨out, printed⟩ := prints good
    exact ⟨before ++ out, by rw [printed]; rfl⟩
  · obtain ⟨n, rfl⟩ := Nat.exists_eq_add_of_le' (Nat.le_of_add_left_le enough)
    rw [step n (by omega) σ putch s, onward n (by omega) σ putch, map_again]

theorem literal_run {σ : Type} (putch : σ → UInt8 → σ) (flags rest : List UInt8) (fuel : Nat) (s : σ) (ap : List VaArg) (i : Nat) (here : Rest fmt i (flags ++ rest))
    (each : ∀ f ∈ flags, isFlag f = true) :
    vprintfmt putch (fuel + flags.length) s fmt ap i = vprintfmt putch fuel (flags.foldl putch s) fmt ap (i + flags.length) := by
  induction flags generalizing s i with
  | nil => rfl
  | cons f flags ih =>
      obtain ⟨read, later⟩ := rest_cons i f (flags ++ rest) here
      obtain ⟨other, char⟩ := flag_is_text f (each f (by simp))
      rw [List.length_cons, ← Nat.add_assoc, vprintfmt_plain putch _ s ap i f read other char,
        ih (putch s f) (i + 1) later fun g member => each g (List.mem_cons_of_mem f member), List.foldl_cons, show i + 1 + flags.length = i + (flags.length + 1) by omega]

theorem emits_unknown (flags rest : List UInt8) (stars ap errs : List VaArg) (i : Nat) (here : Rest fmt i (chr '%' :: (flags ++ rest)))
    (each : ∀ f ∈ flags, isFlag f = true) (counted : stars.length = flags.count (chr '*')) (stop : ∀ c tail, rest = c :: tail → isFlag c = false ∧ arity c = none)
    (later : Emits fmt ap errs (i + 1 + flags.length)) : Emits fmt (stars ++ ap) errs i := by
  obtain ⟨read, inner⟩ := rest_cons i _ _ here
  obtain ⟨reach, result, stops, prints, onward⟩ := later
  have halts : isFlag (rest.headD 0) = false ∧ arity (rest.headD 0) = none := by
    cases rest with
    | nil => decide
    | cons c tail => exact stop c tail rfl
  have back := backtrack_spec i flags.length flags rest here (fun f member => (flag_is_text f (each f member)).1) (Nat.le_refl _)
  refine ⟨reach + 2 * flags.length + 2, result.map fun out => (chr '%' :: flags) ++ out, fun bad => by rw [stops bad]; rfl, fun good => ?_, fun fuel enough σ putch s => ?_⟩
  · obtain ⟨out, printed⟩ := prints good
    exact ⟨(chr '%' :: flags) ++ out, by rw [printed]; rfl⟩
  · obtain ⟨n, rfl⟩ := Nat.exists_eq_add_of_le' (show 1 ≤ fuel by omega)
    obtain ⟨m, rfl⟩ := Nat.exists_eq_add_of_le' (show flags.length ≤ n by omega)
    obtain ⟨c, switched⟩ := reswitch_spec flags.length flags rest freshConversion stars ap (i + 1) inner each halts.1 counted (Nat.le_refl _)
    rw [vprintfmt_percent putch _ s _ ap i _ _ c read (switched (m + flags.length) (by omega)), convert_unknown putch _ s _ c ap _ _ halts.2, Nat.add_sub_cancel, back, ok_bind, ok_bind]
    rw [literal_run putch flags rest m _ ap (i + 1) inner each, onward m (by omega) σ putch, ← map_again, List.foldl_cons]

theorem emits_conversion (flags : List UInt8) (conv : UInt8) (rest : List UInt8) (stars own ap errs : List VaArg) (i : Nat)
    (here : Rest fmt i (chr '%' :: (flags ++ conv :: rest))) (each : ∀ f ∈ flags, isFlag f = true) (counted : stars.length = flags.count (chr '*'))
    (known : arity conv = some own.length) (strings : conv = chr 's' → ∀ v ∈ own, ∃ p, stringOf v = .ok p) (other : conv ≠ chr 'e')
    (later : Emits fmt ap errs (i + 1 + flags.length + 1)) : Emits fmt (stars ++ (own ++ ap)) errs i := by
  obtain ⟨read, inner⟩ := rest_cons i _ _ here
  obtain ⟨c, switched⟩ := reswitch_spec flags.length flags (conv :: rest) freshConversion stars (own ++ ap) (i + 1) inner each (known_no_flag conv _ known) counted
    (Nat.le_refl _)
  obtain ⟨out, converts⟩ := convert_spec conv c own ap (i + 1 + flags.length + 1) known other strings
  refine emits_after _ ap errs i _ (max flags.length 64 + 1) out later fun fuel enough σ putch s => ?_
  rw [vprintfmt_percent putch fuel s _ _ i _ _ c read (switched fuel (by omega)), List.headD_cons, converts fuel (by omega), ok_bind]

theorem emits_error (nested : ErrorFormats) (flags rest : List UInt8) (stars ap errs : List VaArg) (v : VaArg) (i : Nat)
    (here : Rest fmt i (chr '%' :: (flags ++ chr 'e' :: rest))) (each : ∀ f ∈ flags, isFlag f = true) (counted : stars.length = flags.count (chr '*'))
    (later : Emits fmt ap errs (i + 1 + flags.length + 1)) : Emits fmt (stars ++ (v :: ap)) (v :: errs) i := by
  obtain ⟨read, inner⟩ := rest_cons i _ _ here
  obtain ⟨c, switched⟩ := reswitch_spec flags.length flags (chr 'e' :: rest) freshConversion stars (v :: ap) (i + 1) inner each
    (show isFlag (chr 'e') = false by decide) counted (Nat.le_refl _)
  obtain ⟨bound, result, stopsHere, printsHere, error⟩ := print_error_spec nested v.int (int_bounds v)
  obtain ⟨reach, last, stops, prints, onward⟩ := later
  have step : ∀ fuel, max flags.length (max bound reach) < fuel → ∀ (σ : Type) (putch : σ → UInt8 → σ) (s : σ), vprintfmt putch (fuel + 1) s fmt (stars ++ (v :: ap)) i =
      ((result.map fun out => out.foldl putch s) >>= fun s => last.map fun out => out.foldl putch s) := by
    intro fuel enough σ putch s
    rw [vprintfmt_percent putch fuel s _ _ i _ _ c read (switched fuel (by omega)), List.headD_cons, convert_error putch _ s c v ap _ fuel, error fuel (by omega) σ putch s]
    cases result with
    | error fault => rfl
    | ok out => exact onward fuel (by omega) σ putch (out.foldl putch s)
  by_cases least : v.int = minInt
  · refine ⟨max flags.length (max bound reach) + 2, .error .badErrorIndex, fun _ => rfl, fun good => absurd least (good v (by simp)), fun fuel enough σ putch s => ?_⟩
    obtain ⟨n, rfl⟩ := Nat.exists_eq_add_of_le' (show 1 ≤ fuel by omega)
    rw [step n (by omega) σ putch s, stopsHere least]
    rfl
  · obtain ⟨out, printed⟩ := printsHere least
    refine ⟨max flags.length (max bound reach) + 2, last.map fun later => out ++ later, fun bad => ?_, fun good => ?_, fun fuel enough σ putch s => ?_⟩
    · obtain ⟨e, member, same⟩ := bad
      cases List.mem_cons.mp member with
      | inl here => exact absurd (here ▸ same) least
      | inr earlier => rw [stops ⟨e, earlier, same⟩]; rfl
    · obtain ⟨text, after⟩ := prints fun e member => good e (List.mem_cons_of_mem v member)
      exact ⟨out ++ text, by rw [after]; rfl⟩
    · obtain ⟨n, rfl⟩ := Nat.exists_eq_add_of_le' (show 1 ≤ fuel by omega)
      rw [step n (by omega) σ putch s, printed, ← map_again]
      rfl

-- The formats for error codes are needed where there is such a conversion.
theorem emits_suited (suffix : List UInt8) (ap errs : List VaArg) (suits : Suits suffix ap errs) (nested : errs ≠ [] → ErrorFormats) (i : Nat)
    (here : Rest fmt i suffix) : Emits fmt ap errs i := by
  induction suits generalizing i with
  | done ap =>
      refine ⟨1, .ok [], fun bad => ?_, fun _ => ⟨[], rfl⟩, fun fuel enough σ putch s => ?_⟩
      · obtain ⟨e, member, _⟩ := bad
        cases member
      · obtain ⟨n, rfl⟩ := Nat.exists_eq_add_of_le' enough
        simp only [vprintfmt, rest_nil i here, ok_bind, show (0 : UInt8) ≠ chr '%' by decide, ne_eq, not_false_eq_true, if_true, pure_ok]
        rfl
  | plain c rest ap errs other char later ih =>
      obtain ⟨read, inner⟩ := rest_cons i c rest here
      exact emits_after ap ap errs i (i + 1) 0 [c] (ih nested (i + 1) inner) fun fuel _ σ putch s => vprintfmt_plain putch fuel s ap i c read other char
  | conversion flags conv rest stars own ap errs each counted known strings later ih =>
      have inner := rest_append _ _ _ (rest_cons i _ _ here).2
      have after := (rest_cons _ _ _ inner).2
      by_cases error : conv = chr 'e'
      · subst error
        rw [if_pos rfl] at nested ⊢
        obtain ⟨v, rfl⟩ := List.length_eq_one_iff.mp (Option.some.inj known).symm
        exact emits_error (nested (by simp)) flags rest stars ap errs v i here each counted (ih (fun _ => nested (by simp)) _ after)
      · rw [if_neg error] at nested ⊢
        exact emits_conversion flags conv rest stars own ap errs i here each counted known strings error (ih nested _ after)
  | unknown flags rest stars ap errs each counted stop later ih =>
      exact emits_unknown flags rest stars ap errs i here each counted stop (ih nested _ (rest_append _ _ _ (rest_cons i _ _ here).2))

end Runs

theorem rest_start (fmt : List UInt8) : Rest fmt 0 fmt := ⟨Nat.zero_le _, rfl⟩

theorem suits_prints (fmt : List UInt8) (ap : List VaArg) (suits : Suits fmt ap []) : Prints fmt ap := by
  obtain ⟨bound, result, _, prints, onward⟩ := emits_suited fmt ap [] suits (fun absurd => (absurd rfl).elim) 0 (rest_start fmt)
  obtain ⟨out, rfl⟩ := prints fun e member => by cases member
  exact ⟨bound, out, onward⟩

theorem suits_number (v : VaArg) : Suits [37, 100] [v] [] :=
  Suits.conversion [] (chr 'd') [] [] [v] [] [] (fun f member => by cases member) rfl rfl (fun same => absurd same (by decide)) (Suits.done [])

theorem error_formats : ErrorFormats where
  number := fun v => by
    refine suits_prints _ _ ?_
    rw [show chars "error %d" = [101, 114, 114, 111, 114, 32, 37, 100] by decide]
    exact Suits.plain 101 _ _ _ (by decide) (by decide) (Suits.plain 114 _ _ _ (by decide) (by decide) (Suits.plain 114 _ _ _ (by decide) (by decide)
      (Suits.plain 111 _ _ _ (by decide) (by decide) (Suits.plain 114 _ _ _ (by decide) (by decide) (Suits.plain 32 _ _ _ (by decide) (by decide) (suits_number v))))))
  message := fun p => by
    refine suits_prints _ _ ?_
    rw [show chars "%s" = [37, 115] by decide]
    exact Suits.conversion [] (chr 's') [] [] [.text 1 p] [] [] (fun f member => by cases member) rfl rfl
      (fun _ v member => ⟨p, by rw [List.mem_singleton.mp member]; rfl⟩) (Suits.done [])

section Buffer

-- The buffer after a list of characters: the first ones that fit, and the count of all.
structure Sprinted (b b' : Sprintbuf) (out : List UInt8) : Prop where
  cnt : b'.cnt = b.cnt + out.length
  buf : b'.buf = min (b.buf + out.length) b.ebuf
  ebuf : b'.ebuf = b.ebuf
  mem : ∀ addr, b'.mem addr = if b.buf ≤ addr ∧ addr < min (b.buf + out.length) b.ebuf then out.getD (addr - b.buf) 0 else b.mem addr

theorem sprinted_fold (out : List UInt8) (b : Sprintbuf) (inside : b.buf ≤ b.ebuf) (counted : 0 ≤ b.cnt) (small : b.cnt + out.length < 2 ^ 31) :
    Sprinted b (out.foldl sprintputch b) out := by
  induction out generalizing b with
  | nil =>
      refine ⟨by simp, by simp only [List.foldl_nil, List.length_nil]; omega, rfl, fun addr => ?_⟩
      rw [if_neg (by rw [List.length_nil]; omega)]
      rfl
  | cons c rest ih =>
      rw [List.length_cons] at small
      have next : toInt (b.cnt + 1) = b.cnt + 1 := Int.bmod_eq_of_le (by omega) (by omega)
      rw [List.foldl_cons]
      by_cases room : b.buf < b.ebuf
      · have step : sprintputch b c = ⟨Function.update b.mem b.buf c, b.buf + 1, b.ebuf, b.cnt + 1⟩ := by
          simp only [sprintputch, next, if_pos room]
        rw [step]
        obtain ⟨cnt, buf, ebuf, mem⟩ := ih ⟨Function.update b.mem b.buf c, b.buf + 1, b.ebuf, b.cnt + 1⟩ room (by simp only; omega) (by simp only; omega)
        simp only at cnt buf ebuf mem
        refine ⟨by rw [cnt, List.length_cons]; omega, by rw [buf, List.length_cons]; omega, ebuf, fun addr => ?_⟩
        rw [mem addr, List.length_cons]
        by_cases first : addr = b.buf
        · subst first
          rw [if_neg (by omega), if_pos (by omega), Function.update_self, Nat.sub_self, List.getD_cons_zero]
        · rw [Function.update_of_ne first]
          by_cases later : b.buf + 1 ≤ addr ∧ addr < min (b.buf + 1 + rest.length) b.ebuf
          · rw [if_pos later, if_pos (by omega), show addr - b.buf = addr - (b.buf + 1) + 1 by omega, List.getD_cons_succ]
          · rw [if_neg later, if_neg (by omega)]
      · have step : sprintputch b c = ⟨b.mem, b.buf, b.ebuf, b.cnt + 1⟩ := by
          simp only [sprintputch, next, if_neg room]
        rw [step]
        obtain ⟨cnt, buf, ebuf, mem⟩ := ih ⟨b.mem, b.buf, b.ebuf, b.cnt + 1⟩ inside (by simp only; omega) (by simp only; omega)
        simp only at cnt buf ebuf mem
        refine ⟨by rw [cnt, List.length_cons]; omega, by rw [buf, List.length_cons]; omega, ebuf, fun addr => ?_⟩
        rw [mem addr, List.length_cons, if_neg (by omega), if_neg (by omega)]

-- The memory after the printing of a list into size bytes at str.
def bounded (mem : Bytes) (str size : Nat) (out : List UInt8) : Bytes := fun addr =>
  if str ≤ addr ∧ addr < str + min (size - 1) out.length then out.getD (addr - str) 0
  else if addr = str + min (size - 1) out.length then 0
  else mem addr

theorem vsnprintf_spec (fuel : Nat) (mem : Bytes) (str size : Nat) (fmt : List UInt8) (ap : List VaArg) (out : List UInt8) (one : 1 ≤ size) (named : str ≠ 0)
    (fits : str + size ≤ 2 ^ 64) (small : out.length < 2 ^ 31)
    (prints : ∀ b, vprintfmt sprintputch fuel b fmt ap 0 = .ok (out.foldl sprintputch b)) :
    vsnprintf fuel mem str size fmt ap = .ok (out.length, bounded mem str size out) := by
  have last : (str + size + (2 ^ 64 - 1)) % 2 ^ 64 = str + size - 1 := by omega
  obtain ⟨cnt, buf, _, written⟩ := sprinted_fold out ⟨mem, str, str + size - 1, 0⟩ (by simp only; omega) (Int.le_refl 0) (by simp only; omega)
  have valid : ¬ (str = 0 ∨ str + size - 1 < str) := by omega
  simp only [vsnprintf, last, if_neg valid, prints, ok_bind, pure_ok]
  simp only at cnt buf written
  refine congrArg Except.ok (Prod.ext (by rw [cnt, Int.zero_add]) (funext fun addr => ?_))
  have place : min (str + out.length) (str + size - 1) = str + min (size - 1) out.length := by omega
  rw [place] at buf written
  simp only [bounded, buf]
  by_cases end' : addr = str + min (size - 1) out.length
  · rw [end', Function.update_self, if_neg (by omega), if_pos rfl]
  · rw [Function.update_of_ne end', written addr, if_neg end']

-- With enough rounds the run prints a list into any sink, and that list into a buffer as far as it fits.
def PrefixCorrect (fmt : List UInt8) (ap : List VaArg) : Prop :=
  ∃ rounds, ∀ fuel, rounds ≤ fuel → ∃ out, vprintfmt (fun s c => s ++ [c]) fuel [] fmt ap 0 = .ok out ∧
    ∀ mem str size, 1 ≤ size → str ≠ 0 → str + size ≤ 2 ^ 64 → out.length < 2 ^ 31 →
      vsnprintf fuel mem str size fmt ap = .ok (out.length, bounded mem str size out)

theorem foldl_snoc (start out : List UInt8) : (out.foldl (fun s c => s ++ [c]) start) = start ++ out := by
  induction out generalizing start with
  | nil => simp
  | cons c rest ih => rw [List.foldl_cons, ih, List.append_assoc, List.singleton_append]

theorem prefix_correct_of (fmt : List UInt8) (ap errs : List VaArg) (suits : Suits fmt ap errs) (negatable : ∀ e ∈ errs, e.int ≠ minInt) : PrefixCorrect fmt ap := by
  obtain ⟨rounds, result, _, prints, onward⟩ := emits_suited fmt ap errs suits (fun _ => error_formats) 0 (rest_start fmt)
  obtain ⟨out, rfl⟩ := prints negatable
  refine ⟨rounds, fun fuel enough => ⟨out, ?_, fun mem str size one named fits small => ?_⟩⟩
  · rw [onward fuel enough]
    exact congrArg Except.ok ((foldl_snoc [] out).trans (List.nil_append out))
  · exact vsnprintf_spec fuel mem str size fmt ap out one named fits small fun b => onward fuel enough Sprintbuf sprintputch b

theorem not_prefix_correct (fmt : List UInt8) (ap errs : List VaArg) (suits : Suits fmt ap errs) (least : ∃ e ∈ errs, e.int = minInt) : ¬ PrefixCorrect fmt ap := by
  obtain ⟨rounds, result, stops, _, onward⟩ := emits_suited fmt ap errs suits (fun _ => error_formats) 0 (rest_start fmt)
  rintro ⟨enough, correct⟩
  obtain ⟨out, printed, _⟩ := correct (max rounds enough) (Nat.le_max_right _ _)
  rw [onward _ (Nat.le_max_left _ _), stops least] at printed
  cases printed

-- vsnprintf is bounded and prefix-correct exactly if no conversion for an error code has the least int.
theorem prefix_correct_iff (fmt : List UInt8) (ap errs : List VaArg) (suits : Suits fmt ap errs) : PrefixCorrect fmt ap ↔ ∀ e ∈ errs, e.int ≠ minInt := by
  constructor
  · intro correct e member least
    exact not_prefix_correct fmt ap errs suits ⟨e, member, least⟩ correct
  · exact prefix_correct_of fmt ap errs suits

end Buffer

-- The format n%5d% with a number, and %e with the least int.
theorem prefix_correct_lone : PrefixCorrect [110, 37, 53, 100, 37] [.word 7] :=
  (prefix_correct_iff [110, 37, 53, 100, 37] [.word 7] []
    (Suits.plain 110 _ _ _ (by decide) (by decide)
      (Suits.conversion [53] (chr 'd') [37] [] [.word 7] [] [] (fun f member => by rw [List.mem_singleton.mp member]; rfl) rfl rfl
        (fun same => absurd same (by decide))
        (Suits.unknown [] [] [] [] [] (fun f member => by cases member) rfl (fun c tail same => by cases same) (Suits.done []))))).mpr
    fun e member => by cases member

theorem least_error_code : ∃ ap errs, Suits [37, 101] ap errs ∧ ¬ PrefixCorrect [37, 101] ap ∧
    vsnprintf 100 zeroBytes 4096 16 [37, 101] ap = .error .badErrorIndex := by
  have suits : Suits [37, 101] [.word 0x80000000] [.word 0x80000000] :=
    Suits.conversion [] (chr 'e') [] [] [.word 0x80000000] [] [] (fun f member => by cases member) rfl rfl (fun same => absurd same (by decide)) (Suits.done [])
  exact ⟨_, _, suits, not_prefix_correct _ _ _ suits ⟨.word 0x80000000, by simp, by decide⟩, rfl⟩

end Ucore.Stdio
