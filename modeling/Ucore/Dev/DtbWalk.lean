import Mathlib.Tactic.Common
import Ucore.Dev.DtbTree

set_option autoImplicit false

namespace Ucore.Dev

open Ucore.Lib

section Strings

variable (mem : Bytes)

theorem strlen_holds (text : List UInt8) (s bytes : Nat) (held : HoldsAt mem s (text ++ [0])) (plain : 0 ∉ text) (reach : text.length < bytes) :
    strlen mem s bytes = some text.length := by
  induction text generalizing s bytes with
  | nil =>
      obtain ⟨n, rfl⟩ := Nat.exists_eq_succ_of_ne_zero (Nat.ne_of_gt reach)
      obtain ⟨here, _⟩ := (holds_cons mem s 0 []).mp held
      rw [strlen, if_pos here, List.length_nil]
  | cons c rest ih =>
      obtain ⟨n, rfl⟩ := Nat.exists_eq_succ_of_ne_zero (Nat.ne_of_gt (Nat.lt_of_le_of_lt (Nat.zero_le _) reach))
      rw [List.cons_append, holds_cons] at held
      obtain ⟨here, later⟩ := held
      have apart : ¬ mem s = 0 := fun zero => plain (by simp [← here, zero])
      have next := ih (s + 1) n later (fun member => plain (List.mem_cons_of_mem c member)) (Nat.lt_of_succ_lt_succ reach)
      rw [strlen, if_neg apart, next, Option.map_some, List.length_cons]

theorem strncmp_holds (text name : List UInt8) (s : Nat) (held : HoldsAt mem s (name ++ [0])) (plain : 0 ∉ text) :
    strncmpSame mem s text = text.isPrefixOf name := by
  induction text generalizing name s with
  | nil => simp [strncmpSame]
  | cons c rest ih =>
      have other : c ≠ 0 := fun zero => plain (by simp [zero])
      cases name with
      | nil =>
          obtain ⟨here, _⟩ := (holds_cons mem s 0 []).mp held
          simp [strncmpSame, here, other.symm]
      | cons d later =>
          rw [List.cons_append, holds_cons] at held
          obtain ⟨here, onward⟩ := held
          have next := ih later (s + 1) onward fun member => plain (List.mem_cons_of_mem c member)
          by_cases same : d = c
          · subst same
            simp [strncmpSame, here, other, next]
          · simp [strncmpSame, here, same, List.isPrefixOf, Ne.symm same]

theorem strcmp_holds (text name : List UInt8) (s : Nat) (held : HoldsAt mem s (name ++ [0])) (plain : 0 ∉ text) (named : 0 ∉ name) :
    strcmpSame mem s text = decide (name = text) := by
  induction text generalizing name s with
  | nil =>
      cases name with
      | nil =>
          obtain ⟨here, _⟩ := (holds_cons mem s 0 []).mp held
          simp [strcmpSame, here]
      | cons d later =>
          rw [List.cons_append, holds_cons] at held
          obtain ⟨here, _⟩ := held
          have other : d ≠ 0 := fun zero => named (by simp [zero])
          simp [strcmpSame, here, other]
  | cons c rest ih =>
      have other : c ≠ 0 := fun zero => plain (by simp [zero])
      cases name with
      | nil =>
          obtain ⟨here, _⟩ := (holds_cons mem s 0 []).mp held
          simp [strcmpSame, here, other.symm]
      | cons d later =>
          rw [List.cons_append, holds_cons] at held
          obtain ⟨here, onward⟩ := held
          have next := ih later (s + 1) onward (fun member => plain (List.mem_cons_of_mem c member)) fun member => named (List.mem_cons_of_mem d member)
          by_cases same : d = c
          · subst same
            simp [strcmpSame, here, other, next]
          · simp [strcmpSame, here, same]

end Strings

section Steps

variable (mem : Bytes) (stringsBase bytes : Nat)

-- The flag after a token.
def flagAfter (flag : Bool) : FdtToken → Bool
  | .beginNode name => beginsMemory name || flag
  | .endNode => false
  | _ => flag

theorem read_eight (addr : Nat) (data : List UInt8) (held : HoldsAt mem addr data) (large : 8 ≤ data.length) :
    fdt64ToCpu (getLe mem addr 8) = beNum (data.take 8) := by
  match data, large with
  | a :: b :: c :: d :: e :: f :: g :: h :: rest, _ =>
      have split : [a, b, c, d, e, f, g, h] ++ rest = a :: b :: c :: d :: e :: f :: g :: h :: rest := rfl
      rw [← split, holds_append] at held
      have two := (holds_append mem addr [a, b, c, d] [e, f, g, h]).mp held.1
      have low := get_le_four mem addr a b c d two.1
      have high := get_le_four mem (addr + 4) e f g h two.2
      have whole : getLe mem addr 8 = getLe mem addr 4 + 2 ^ 32 * getLe mem (addr + 4) 4 := by
        simp only [getLe, Nat.add_assoc, Nat.reduceAdd]
        omega
      have lowSmall := get_le_lt mem addr 4
      have first : (getLe mem addr 4 + 2 ^ 32 * getLe mem (addr + 4) 4) % 2 ^ 32 = getLe mem addr 4 := by omega
      have second : (getLe mem addr 4 + 2 ^ 32 * getLe mem (addr + 4) 4) / 2 ^ 32 = getLe mem (addr + 4) 4 := by omega
      have firstRead := read_four mem addr a b c d two.1
      have secondRead := read_four mem (addr + 4) e f g h two.2
      have bound : beNum [e, f, g, h] < 2 ^ 32 := by
        have byte0 := e.toNat_lt
        have byte1 := f.toNat_lt
        have byte2 := g.toNat_lt
        have byte3 := h.toNat_lt
        simp only [beNum, List.foldl_cons, List.foldl_nil]
        omega
      rw [fdt64ToCpu, whole, first, second, firstRead, secondRead, ← Nat.shiftLeft_add_eq_or_of_lt bound, Nat.shiftLeft_eq]
      simp only [beNum, List.take_succ_cons, List.take_zero, List.foldl_cons, List.foldl_nil]
      omega

theorem encode_aligned (token : FdtToken) : token.encode.length % 4 = 0 := by
  cases token with
  | beginNode name =>
      simp only [FdtToken.encode, be32, padding, List.length_append, List.length_cons, List.length_nil, List.length_replicate]
      omega
  | endNode => rfl
  | prop property =>
      simp only [FdtToken.encode, be32, padding, List.length_append, List.length_cons, List.length_nil, List.length_replicate]
      omega
  | nop => rfl
  | fin => rfl

-- What the round at a token comes to.
def stepTo (structPtr : Nat) (flag : Bool) (token : FdtToken) : FdtState :=
  if flag ∧ token.reg?.isSome then token.reg?.elim .notFound FdtProperty.range
  else if token = .fin then .notFound
  else .reading (structPtr + token.encode.length) (flagAfter flag token)

theorem token_step (structPtr : Nat) (flag : Bool) (token : FdtToken) (held : HoldsAt mem structPtr token.encode) (aligned : structPtr % 4 = 0)
    (sound : token.Sound mem stringsBase) (reach : token.encode.length ≤ bytes) :
    fdtStep mem stringsBase bytes (.reading structPtr flag) = some (stepTo structPtr flag token) := by
  cases token with
  | beginNode name =>
      obtain ⟨plain, short⟩ := sound
      obtain ⟨number, rest⟩ := (holds_append mem structPtr _ _).mp held
      obtain ⟨text, _⟩ := (holds_append mem (structPtr + 4) _ _).mp rest
      have read := read_be32 mem structPtr fdtBeginNode (by decide) number
      have length := strlen_holds mem name (structPtr + 4) bytes text plain (by
        simp only [FdtToken.encode, be32, List.length_append, List.length_cons, List.length_nil] at reach
        omega)
      have begins := strncmp_holds mem memoryText name (structPtr + 4) text (by decide)
      have whole : ((name.length : Nat) : Int).bmod (2 ^ 32) = name.length := Int.bmod_eq_of_le (by omega) (by omega)
      have next : (((structPtr + 4 : Nat) : Int) + name.length + 4).toNat / 4 * 4 = structPtr + (FdtToken.beginNode name).encode.length := by
        simp only [FdtToken.encode, be32, padding, List.length_append, List.length_cons, List.length_nil, List.length_replicate]
        omega
      simp only [fdtStep, read, if_true, length, Option.bind_eq_bind, Option.bind_some, begins, whole, next, stepTo, FdtToken.reg?, Option.isSome_none,
        Bool.false_eq_true, and_false, if_false, reduceCtorEq, flagAfter, beginsMemory]
      cases memoryText.isPrefixOf name <;> rfl
  | endNode =>
      have read := read_be32 mem structPtr fdtEndNode (by decide) held
      simp [fdtStep, read, stepTo, FdtToken.reg?, flagAfter, fdtEndNode, fdtBeginNode, FdtToken.encode, be32]
  | prop property =>
      obtain ⟨named, short, near, string⟩ := sound
      obtain ⟨number, rest⟩ := (holds_append mem structPtr _ _).mp held
      obtain ⟨length, rest⟩ := (holds_append mem (structPtr + 4) _ _).mp rest
      obtain ⟨nameoff, rest⟩ := (holds_append mem (structPtr + 8) _ _).mp rest
      obtain ⟨data, _⟩ := (holds_append mem (structPtr + 12) _ _).mp rest
      have read := read_be32 mem structPtr fdtProp (by decide) number
      have readLength := read_be32 mem (structPtr + 4) property.data.length short length
      have readName := read_be32 mem (structPtr + 4 + 4) property.nameoff near nameoff
      have compared := strcmp_holds mem regText property.name (stringsBase + property.nameoff) string (by decide) named
      have next : (structPtr + 4 + 8 + property.data.length + 3) / 4 * 4 = structPtr + (FdtToken.prop property).encode.length := by
        simp only [FdtToken.encode, be32, padding, List.length_append, List.length_cons, List.length_nil, List.length_replicate]
        omega
      have hits : (flag = true ∧ decide (property.name = regText) = true ∧ 16 ≤ property.data.length) ↔
          flag = true ∧ (FdtToken.prop property).reg?.isSome = true := by
        simp only [FdtToken.reg?, FdtProperty.isReg]
        by_cases reg : property.name = regText ∧ 16 ≤ property.data.length
        · simp [reg]
        · simp [reg]
      simp only [fdtStep, read, show ¬ fdtProp = fdtBeginNode by decide, show ¬ fdtProp = fdtEndNode by decide, if_false, if_true, readLength, readName,
        compared, hits, next, stepTo, reduceCtorEq, flagAfter]
      by_cases hit : flag = true ∧ (FdtToken.prop property).reg?.isSome = true
      · have reg : property.isReg = true := by
          have answered := hit.2
          simp only [FdtToken.reg?] at answered
          by_contra other
          simp [other] at answered
        have large : 16 ≤ property.data.length := by
          simp only [FdtProperty.isReg, decide_eq_true_eq] at reg
          exact reg.2
        have base := read_eight mem (structPtr + 12) property.data data (by omega)
        have size := read_eight mem (structPtr + 12 + 8) (property.data.drop 8) (by
          have two := data
          rw [← List.take_append_drop 8 property.data, holds_append] at two
          rw [List.length_take, Nat.min_eq_left (by omega)] at two
          exact two.2) (by rw [List.length_drop]; omega)
        rw [if_pos hit, if_pos hit, show structPtr + 4 + 8 = structPtr + 12 from rfl, base, size]
        simp [FdtToken.reg?, reg, FdtProperty.range]
      · rw [if_neg hit, if_neg hit]
  | nop =>
      have read := read_be32 mem structPtr fdtNop (by decide) held
      simp [fdtStep, read, stepTo, FdtToken.reg?, flagAfter, fdtEndNode, fdtBeginNode, fdtProp, fdtNop, FdtToken.encode, be32]
  | fin =>
      have read := read_be32 mem structPtr fdtEnd (by decide) held
      simp [fdtStep, read, stepTo, FdtToken.reg?, fdtEndNode, fdtBeginNode, fdtProp, fdtNop, fdtEnd]

end Steps

end Ucore.Dev
