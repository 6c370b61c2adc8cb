import Ucore.Lib.Bytes
import Ucore.Lib.Checked

set_option autoImplicit false

namespace Ucore.Stdio

open Ucore.Lib

inductive PrintFault where
  | badArgument
  | badErrorIndex
  | readOutside
  | outOfFuel
deriving DecidableEq, Repr

-- What a vararg slot holds: a number, or the address of a string with its characters.
inductive VaArg where
  | word (value : BitVec 64)
  | text (addr : BitVec 64) (chars : List UInt8)
deriving DecidableEq

def VaArg.value : VaArg → BitVec 64
  | .word value => value
  | .text addr _ => addr

def VaArg.int (v : VaArg) : Int := (v.value.setWidth 32).toInt

def chr (c : Char) : UInt8 := UInt8.ofNat c.toNat

def toInt (n : Int) : Int := Int.bmod n (2 ^ 32)

def maxError : Int := 24

def chars (s : String) : List UInt8 := s.toList.map chr

def errorString (err : Int) : Option (List UInt8) :=
  if err = 1 then some (chars "unspecified error")
  else if err = 2 then some (chars "bad process")
  else if err = 3 then some (chars "invalid parameter")
  else if err = 4 then some (chars "out of memory")
  else if err = 5 then some (chars "out of processes")
  else if err = 6 then some (chars "segmentation fault")
  else if err = 8 then some (chars "invalid elf file")
  else if err = 9 then some (chars "process is killed")
  else if err = 10 then some (chars "panic failure")
  else if err = 13 then some (chars "no such device")
  else if err = 14 then some (chars "device not available")
  else if err = 15 then some (chars "device/file is busy")
  else if err = 16 then some (chars "no such file or directory")
  else if err = 17 then some (chars "is a directory")
  else if err = 18 then some (chars "not a directory")
  else if err = 19 then some (chars "cross device link")
  else if err = 20 then some (chars "unimplemented feature")
  else if err = 21 then some (chars "illegal seek")
  else if err = 22 then some (chars "too many files are open")
  else if err = 23 then some (chars "file or directory already exists")
  else if err = 24 then some (chars "directory is not empty")
  else none

-- The variables of a conversion.
structure Conversion where
  padc : UInt8
  width : Int
  precision : Int
  lflag : Int
  altflag : Bool

def freshConversion : Conversion := ⟨chr ' ', -1, -1, 0, false⟩

def Conversion.processPrecision (c : Conversion) : Conversion :=
  if c.width < 0 then { c with width := c.precision, precision := -1 } else c

def vaArg : List VaArg → Except PrintFault (VaArg × List VaArg)
  | [] => .error .badArgument
  | v :: ap => .ok (v, ap)

def getuint (v : VaArg) (lflag : Int) : BitVec 64 :=
  if 2 ≤ lflag then v.value
  else if lflag ≠ 0 then v.value
  else (v.value.setWidth 32).setWidth 64

def getint (v : VaArg) (lflag : Int) : BitVec 64 :=
  if 2 ≤ lflag then v.value
  else if lflag ≠ 0 then v.value
  else (v.value.setWidth 32).signExtend 64

-- A character of the format, which ends with its null.
def fmtAt (fmt : List UInt8) (i : Nat) : Except PrintFault UInt8 :=
  if bound : i < fmt.length then .ok (fmt.get ⟨i, bound⟩)
  else if i = fmt.length then .ok 0
  else .error .readOutside

def isDigit (ch : UInt8) : Bool := chr '0' ≤ ch ∧ ch ≤ chr '9'

-- The loop of a width field; ch has been read at i - 1.
def widthLoop (fmt : List UInt8) (i : Nat) (ch : UInt8) (precision : Int) : Nat → Except PrintFault (Int × Nat)
  | 0 => .error .outOfFuel
  | fuel + 1 => do
      let precision := toInt (precision * 10 + ch.toNat - (chr '0').toNat)
      let ch ← fmtAt fmt i
      if !isDigit ch then return (precision, i)
      else widthLoop fmt (i + 1) ch precision fuel

-- From reswitch up to the character of the conversion, which comes with the place behind it.
def reswitch (fmt : List UInt8) (c : Conversion) (ap : List VaArg) (i : Nat) : Nat → Except PrintFault (UInt8 × Conversion × List VaArg × Nat)
  | 0 => .error .outOfFuel
  | fuel + 1 => do
      let ch ← fmtAt fmt i
      if ch = chr '-' then reswitch fmt { c with padc := chr '-' } ap (i + 1) fuel
      else if ch = chr '0' then reswitch fmt { c with padc := chr '0' } ap (i + 1) fuel
      else if isDigit ch then
        let (precision, i) ← widthLoop fmt (i + 1) ch 0 fuel
        reswitch fmt { c with precision := precision }.processPrecision ap i fuel
      else if ch = chr '*' then
        let (v, ap) ← vaArg ap
        reswitch fmt { c with precision := v.int }.processPrecision ap (i + 1) fuel
      else if ch = chr '.' then reswitch fmt (if c.width < 0 then { c with width := 0 } else c) ap (i + 1) fuel
      else if ch = chr '#' then reswitch fmt { c with altflag := true } ap (i + 1) fuel
      else if ch = chr 'l' then reswitch fmt { c with lflag := toInt (c.lflag + 1) } ap (i + 1) fuel
      else return (ch, c, ap, i + 1)

-- The loop that goes back behind the percent sign of the conversion.
def backtrack (fmt : List UInt8) : Nat → Except PrintFault Nat
  | 0 => .error .readOutside
  | i + 1 => do
      let ch ← fmtAt fmt i
      if ch = chr '%' then return i + 1
      else backtrack fmt i

section Sink

variable {σ : Type} (putch : σ → UInt8 → σ)

def putPads (padc : UInt8) (s : σ) : Nat → σ
  | 0 => s
  | n + 1 => putPads padc (putch s padc) n

def digitChars : List UInt8 := chars "0123456789abcdef"

-- As --width is positive in as many rounds.
def printnum (s : σ) (num base : Nat) (width : Int) (padc : UInt8) : Nat → Except PrintFault σ
  | 0 => .error .outOfFuel
  | fuel + 1 => do
      let s ← if base ≤ num then printnum s (num / base) base (toInt (width - 1)) padc fuel
        else .ok (putPads putch padc s (toInt (width - 1)).toNat)
      return putch s (digitChars.getD (num % base) 0)

-- The loop over the characters of a string.
def stringLoop (altflag : Bool) : List UInt8 → Int → Int → σ → σ × Int
  | [], _, width, s => (s, width)
  | ch :: rest, precision, width, s =>
      let shown := if altflag ∧ (ch < chr ' ' ∨ chr '~' < ch) then chr '?' else ch
      if precision < 0 then stringLoop altflag rest precision (toInt (width - 1)) (putch s shown)
      else if 0 ≤ precision - 1 then stringLoop altflag rest (precision - 1) (toInt (width - 1)) (putch s shown)
      else (s, width)

def strnlen (p : List UInt8) (len : Nat) : Nat := min p.length len

def printString (c : Conversion) (p : List UInt8) (s : σ) : σ :=
  let padded := 0 < c.width ∧ c.padc ≠ chr '-'
  let width := if padded then toInt (c.width - strnlen p (c.precision % 2 ^ 64).toNat) else c.width
  let s := if padded then putPads putch c.padc s width.toNat else s
  let width := if padded ∧ 0 < width then 0 else width
  let (s, width) := stringLoop putch c.altflag p c.precision width s
  putPads putch (chr ' ') s width.toNat

def stringOf : VaArg → Except PrintFault (List UInt8)
  | .word value => if value = 0 then .ok (chars "(null)") else .error .badArgument
  | .text addr p => .ok (if addr = 0 then chars "(null)" else p)

-- A constant is not at address 0.
def printError (again : σ → List UInt8 → List VaArg → Except PrintFault σ) (s : σ) (err : Int) : Except PrintFault σ := do
  let err := if err < 0 then toInt (-err) else err
  if maxError < err then again s (chars "error %d") [.word (BitVec.ofInt 64 err)]
  else
    check (0 ≤ err) .badErrorIndex
    match errorString err with
    | none => again s (chars "error %d") [.word (BitVec.ofInt 64 err)]
    | some p => again s (chars "%s") [.text 1 p]

-- One conversion, with the place of the format to go on from. again is vprintfmt, for printfmt.
def convert (again : σ → List UInt8 → List VaArg → Except PrintFault σ) (fmt : List UInt8) (s : σ) (ch : UInt8) (c : Conversion)
    (ap : List VaArg) (i fuel : Nat) : Except PrintFault (σ × List VaArg × Nat) := do
  if ch = chr 'c' then
    let (v, ap) ← vaArg ap
    return (putch s (UInt8.ofNat v.value.toNat), ap, i)
  else if ch = chr 'e' then
    let (v, ap) ← vaArg ap
    let s ← printError again s v.int
    return (s, ap, i)
  else if ch = chr 's' then
    let (v, ap) ← vaArg ap
    let p ← stringOf v
    return (printString putch c p s, ap, i)
  else if ch = chr 'd' then
    let (v, ap) ← vaArg ap
    let num := getint v c.lflag
    let s ← if num.toInt < 0 then printnum putch (putch s (chr '-')) (-num).toNat 10 c.width c.padc fuel
      else printnum putch s num.toNat 10 c.width c.padc fuel
    return (s, ap, i)
  else if ch = chr 'u' then
    let (v, ap) ← vaArg ap
    let s ← printnum putch s (getuint v c.lflag).toNat 10 c.width c.padc fuel
    return (s, ap, i)
  else if ch = chr 'o' then
    let (v, ap) ← vaArg ap
    let s ← printnum putch s (getuint v c.lflag).toNat 8 c.width c.padc fuel
    return (s, ap, i)
  else if ch = chr 'p' then
    let (v, ap) ← vaArg ap
    let s ← printnum putch (putch (putch s (chr '0')) (chr 'x')) v.value.toNat 16 c.width c.padc fuel
    return (s, ap, i)
  else if ch = chr 'x' then
    let (v, ap) ← vaArg ap
    let s ← printnum putch s (getuint v c.lflag).toNat 16 c.width c.padc fuel
    return (s, ap, i)
  else if ch = chr '%' then return (putch s ch, ap, i)
  else
    let s := putch s (chr '%')
    let i ← backtrack fmt (i - 1)
    return (s, ap, i)

def vprintfmt : Nat → σ → List UInt8 → List VaArg → Nat → Except PrintFault σ
  | 0, _, _, _, _ => .error .outOfFuel
  | fuel + 1, s, fmt, ap, i => do
      let ch ← fmtAt fmt i
      if ch ≠ chr '%' then
        if ch = 0 then return s
        else vprintfmt fuel (putch s ch) fmt ap (i + 1)
      else
        let (ch, c, ap, i) ← reswitch fmt freshConversion ap (i + 1) fuel
        let (s, ap, i) ← convert putch (fun s fmt ap => vprintfmt fuel s fmt ap 0) fmt s ch c ap i fuel
        vprintfmt fuel s fmt ap i

end Sink

-- struct sprintbuf, with the memory it points into.
structure Sprintbuf where
  mem : Bytes
  buf : Nat
  ebuf : Nat
  cnt : Int

def sprintputch (b : Sprintbuf) (ch : UInt8) : Sprintbuf :=
  let b := { b with cnt := toInt (b.cnt + 1) }
  if b.buf < b.ebuf then { b with mem := Function.update b.mem b.buf ch, buf := b.buf + 1 } else b

def eInval : Int := 3

def vsnprintf (fuel : Nat) (mem : Bytes) (str size : Nat) (fmt : List UInt8) (ap : List VaArg) : Except PrintFault (Int × Bytes) := do
  let b : Sprintbuf := ⟨mem, str, (str + size + (2 ^ 64 - 1)) % 2 ^ 64, 0⟩
  if str = 0 ∨ b.ebuf < b.buf then return (-eInval, mem)
  else
    let b ← vprintfmt sprintputch fuel b fmt ap 0
    return (b.cnt, Function.update b.mem b.buf 0)

end Ucore.Stdio
