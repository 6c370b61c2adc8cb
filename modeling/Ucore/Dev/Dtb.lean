import Ucore.Lib.Bytes

set_option autoImplicit false

namespace Ucore.Dev

open Ucore.Lib

def fdtBeginNode : Nat := 1
def fdtEndNode : Nat := 2
def fdtProp : Nat := 3
def fdtNop : Nat := 4
def fdtEnd : Nat := 9

def offDtStruct : Nat := 8
def offDtStrings : Nat := 12

def fdt32ToCpu (x : Nat) : Nat := (x % 256) <<< 24 ||| (x / 2 ^ 8 % 256) <<< 16 ||| (x / 2 ^ 16 % 256) <<< 8 ||| x / 2 ^ 24 % 256

def fdt64ToCpu (x : Nat) : Nat := fdt32ToCpu (x % 2 ^ 32) <<< 32 ||| fdt32ToCpu (x / 2 ^ 32)

-- The length of the string at s, if its null is among the first bytes.
def strlen (mem : Bytes) (s : Nat) : Nat → Option Nat
  | 0 => none
  | bytes + 1 => if mem s = 0 then some 0 else (strlen mem (s + 1) bytes).map (· + 1)

-- Whether strcmp, or strncmp on as many characters, gives 0 against a given string.
def strcmpSame (mem : Bytes) (s : Nat) : List UInt8 → Bool
  | [] => mem s = 0
  | c :: rest => if mem s ≠ 0 ∧ mem s = c then strcmpSame mem (s + 1) rest else mem s = c

def strncmpSame (mem : Bytes) (s : Nat) : List UInt8 → Bool
  | [] => true
  | c :: rest => if mem s ≠ 0 ∧ mem s = c then strncmpSame mem (s + 1) rest else mem s = c

-- The characters of "memory" and "reg".
def memoryText : List UInt8 := [109, 101, 109, 111, 114, 121]
def regText : List UInt8 := [114, 101, 103]

-- Before a token, with the flag in_memory_node; or after the return, with
-- *mem_base and *mem_size where it is 0.
inductive FdtState where
  | reading (structPtr : Nat) (inMemoryNode : Bool)
  | found (memBase memSize : Nat)
  | notFound
deriving DecidableEq, Repr

-- One round of the loop, for a tree that the addresses do not wrap around in. No
-- string is looked at beyond the given number of bytes, and name_len is an int.
def fdtStep (mem : Bytes) (stringsBase bytes : Nat) : FdtState → Option FdtState
  | .reading structPtr inMemoryNode =>
      let token := fdt32ToCpu (getLe mem structPtr 4)
      let structPtr := structPtr + 4
      if token = fdtBeginNode then do
        let nameLen ← strlen mem structPtr bytes
        let inMemoryNode := if strncmpSame mem structPtr memoryText then true else inMemoryNode
        return .reading ((structPtr + (nameLen : Int).bmod (2 ^ 32) + 4).toNat / 4 * 4) inMemoryNode
      else if token = fdtEndNode then some (.reading structPtr false)
      else if token = fdtProp then
        let propLen := fdt32ToCpu (getLe mem structPtr 4)
        let propNameoff := fdt32ToCpu (getLe mem (structPtr + 4) 4)
        let structPtr := structPtr + 8
        if inMemoryNode ∧ strcmpSame mem (stringsBase + propNameoff) regText ∧ 16 ≤ propLen then
          some (.found (fdt64ToCpu (getLe mem structPtr 8)) (fdt64ToCpu (getLe mem (structPtr + 8) 8)))
        else some (.reading ((structPtr + propLen + 3) / 4 * 4) inMemoryNode)
      else if token = fdtNop then some (.reading structPtr inMemoryNode)
      else some .notFound
  | returned => some returned

def fdtSteps (mem : Bytes) (stringsBase bytes : Nat) (s : FdtState) : Nat → Option FdtState
  | 0 => some s
  | rounds + 1 => (fdtStep mem stringsBase bytes s).bind fun s => fdtSteps mem stringsBase bytes s rounds

-- The pointers at the entry to the loop.
def fdtStringsBase (mem : Bytes) (dtbVaddr : Nat) : Nat := dtbVaddr + fdt32ToCpu (getLe mem (dtbVaddr + offDtStrings) 4)

def fdtStart (mem : Bytes) (dtbVaddr : Nat) : FdtState := .reading (dtbVaddr + fdt32ToCpu (getLe mem (dtbVaddr + offDtStruct) 4)) false

-- extract_memory_info, if it returns within that many rounds.
def extractMemoryInfo (mem : Bytes) (dtbVaddr rounds : Nat) : Option FdtState :=
  (fdtSteps mem (fdtStringsBase mem dtbVaddr) rounds (fdtStart mem dtbVaddr) rounds).bind fun s =>
    match s with
    | .reading _ _ => none
    | returned => some returned

end Ucore.Dev
