import Mathlib.Data.List.Basic
import Ucore.Dev.Dtb
import Ucore.Lib.Bytes

set_option autoImplicit false

namespace Ucore.Dev

open Ucore.Lib

-- A property: its name is in the strings block at nameoff.
structure FdtProperty where
  nameoff : Nat
  name : List UInt8
  data : List UInt8
deriving DecidableEq

inductive FdtToken where
  | beginNode (name : List UInt8)
  | endNode
  | prop (property : FdtProperty)
  | nop
  | fin
deriving DecidableEq

-- The nodes side by side in a tree. A node has its properties first and then its
-- children, with NOP tokens anywhere; none among the properties is such a token.
inductive FdtForest where
  | nil
  | nop (rest : FdtForest)
  | node (name : List UInt8) (properties : List (Option FdtProperty)) (inner rest : FdtForest)

def isMemory (name : List UInt8) : Bool := name = memoryText ∨ (memoryText ++ [64]).isPrefixOf name

def beginsMemory (name : List UInt8) : Bool := memoryText.isPrefixOf name

-- A token in document order. For that of a property, whether it belongs to a memory node,
-- and whether to a node that is taken for one.
structure FdtEntry where
  token : FdtToken
  owner : Bool
  taken : Bool
deriving DecidableEq

def propertyToken : Option FdtProperty → FdtToken
  | none => .nop
  | some property => .prop property

-- A node is taken for a memory node if its name begins so, or if it is the first child
-- of one that is taken for it.
def FdtForest.entries : FdtForest → Bool → List FdtEntry
  | .nil, _ => []
  | .nop rest, first => ⟨.nop, false, false⟩ :: rest.entries first
  | .node name properties inner rest, first =>
      ⟨.beginNode name, false, false⟩ ::
        (properties.map (fun property => ⟨propertyToken property, isMemory name, beginsMemory name || first⟩) ++
          (inner.entries (beginsMemory name || first) ++ ⟨.endNode, false, false⟩ :: rest.entries false))

def FdtProperty.isReg (property : FdtProperty) : Bool := property.name = regText ∧ 16 ≤ property.data.length

def FdtToken.reg? : FdtToken → Option FdtProperty
  | .prop property => if property.isReg then some property else none
  | _ => none

-- The place of the first large enough reg property of a memory node, or of the end.
def FdtForest.place (forest : FdtForest) : Nat := (forest.entries false).findIdx fun e => e.owner && e.token.reg?.isSome

def beNum (bytes : List UInt8) : Nat := bytes.foldl (fun acc b => acc * 256 + b.toNat) 0

def FdtProperty.range (property : FdtProperty) : FdtState := .found (beNum (property.data.take 8)) (beNum ((property.data.drop 8).take 8))

def FdtForest.answer (forest : FdtForest) : FdtState := (((forest.entries false)[forest.place]?).bind fun e => e.token.reg?).elim .notFound FdtProperty.range

-- The encoding of a tree.
def be32 (n : Nat) : List UInt8 := [UInt8.ofNat (n / 2 ^ 24), UInt8.ofNat (n / 2 ^ 16), UInt8.ofNat (n / 2 ^ 8), UInt8.ofNat n]

def padding (len : Nat) : List UInt8 := List.replicate ((4 - len % 4) % 4) 0

def FdtToken.encode : FdtToken → List UInt8
  | .beginNode name => be32 fdtBeginNode ++ (name ++ [0] ++ padding (name.length + 1))
  | .endNode => be32 fdtEndNode
  | .prop property => be32 fdtProp ++ (be32 property.data.length ++ (be32 property.nameoff ++ (property.data ++ padding property.data.length)))
  | .nop => be32 fdtNop
  | .fin => be32 fdtEnd

def encodeTokens (tokens : List FdtToken) : List UInt8 := tokens.flatMap FdtToken.encode

def FdtForest.tokens (forest : FdtForest) : List FdtToken := (forest.entries false).map FdtEntry.token

def FdtForest.struct (forest : FdtForest) : List UInt8 := encodeTokens (forest.tokens ++ [.fin])

-- Names have no null in them, and lengths fit where they are kept. The strings block has
-- the names of the properties.
def FdtToken.Sound (mem : Bytes) (stringsBase : Nat) : FdtToken → Prop
  | .beginNode name => 0 ∉ name ∧ name.length < 2 ^ 31
  | .prop property => 0 ∉ property.name ∧ property.data.length < 2 ^ 32 ∧ property.nameoff < 2 ^ 32 ∧
      HoldsAt mem (stringsBase + property.nameoff) (property.name ++ [0])
  | _ => True

-- A device tree in memory.
structure FdtBlob (mem : Bytes) (dtbVaddr structOff stringsOff : Nat) (forest : FdtForest) : Prop where
  aligned : dtbVaddr % 4 = 0 ∧ structOff % 4 = 0
  small : structOff < 2 ^ 32 ∧ stringsOff < 2 ^ 32
  header : HoldsAt mem (dtbVaddr + offDtStruct) (be32 structOff ++ be32 stringsOff)
  struct : HoldsAt mem (dtbVaddr + structOff) forest.struct
  sound : ∀ token ∈ forest.tokens, token.Sound mem (dtbVaddr + stringsOff)

section Numbers

theorem fdt32_bytes (a b c d : Nat) (first : a < 256) (second : b < 256) (third : c < 256) (fourth : d < 256) :
    fdt32ToCpu (a + 256 * (b + 256 * (c + 256 * d))) = ((a * 256 + b) * 256 + c) * 256 + d := by
  have byte0 : (a + 256 * (b + 256 * (c + 256 * d))) % 256 = a := by omega
  have byte1 : (a + 256 * (b + 256 * (c + 256 * d))) / 2 ^ 8 % 256 = b := by omega
  have byte2 : (a + 256 * (b + 256 * (c + 256 * d))) / 2 ^ 16 % 256 = c := by omega
  have byte3 : (a + 256 * (b + 256 * (c + 256 * d))) / 2 ^ 24 % 256 = d := by omega
  have low : c <<< 8 ||| d = c * 256 + d := by
    rw [← Nat.shiftLeft_add_eq_or_of_lt (show d < 2 ^ 8 from fourth), Nat.shiftLeft_eq]
  have middle : b <<< 16 ||| (c * 256 + d) = b * 65536 + (c * 256 + d) := by
    rw [← Nat.shiftLeft_add_eq_or_of_lt (show c * 256 + d < 2 ^ 16 by omega), Nat.shiftLeft_eq]
  have high : a <<< 24 ||| (b * 65536 + (c * 256 + d)) = a * 16777216 + (b * 65536 + (c * 256 + d)) := by
    rw [← Nat.shiftLeft_add_eq_or_of_lt (show b * 65536 + (c * 256 + d) < 2 ^ 24 by omega), Nat.shiftLeft_eq]
  rw [fdt32ToCpu, byte0, byte1, byte2, byte3, Nat.or_assoc, Nat.or_assoc, low, middle, high]
  omega

theorem get_le_four (mem : Bytes) (addr : Nat) (a b c d : UInt8) (held : HoldsAt mem addr [a, b, c, d]) :
    getLe mem addr 4 = a.toNat + 256 * (b.toNat + 256 * (c.toNat + 256 * d.toNat)) := by
  simp only [holds_cons] at held
  obtain ⟨rfl, rfl, rfl, rfl, _⟩ := held
  simp only [getLe, Nat.mul_zero, Nat.add_zero]

theorem read_four (mem : Bytes) (addr : Nat) (a b c d : UInt8) (held : HoldsAt mem addr [a, b, c, d]) :
    fdt32ToCpu (getLe mem addr 4) = beNum [a, b, c, d] := by
  rw [get_le_four mem addr a b c d held, fdt32_bytes _ _ _ _ a.toNat_lt b.toNat_lt c.toNat_lt d.toNat_lt]
  simp [beNum]

theorem read_be32 (mem : Bytes) (addr n : Nat) (small : n < 2 ^ 32) (held : HoldsAt mem addr (be32 n)) : fdt32ToCpu (getLe mem addr 4) = n := by
  rw [read_four mem addr _ _ _ _ held]
  simp only [beNum, List.foldl_cons, List.foldl_nil, UInt8.toNat_ofNat']
  omega

end Numbers

end Ucore.Dev
