import Mathlib.Data.List.Induction
import Mathlib.Data.List.Pairwise
import Mathlib.Algebra.BigOperators.Group.List.Basic
import Ucore.Lib.Sizes

set_option autoImplicit false

namespace Ucore.Lib

-- Half-open runs of consecutive units, kept in a list by address.
structure Block where
  addr : Nat
  size : Nat
deriving DecidableEq, Repr

namespace Block

def stop (b : Block) : Nat := b.addr + b.size
def Holds (b : Block) (unit : Nat) : Prop := b.addr ≤ unit ∧ unit < b.stop
def Before (a b : Block) : Prop := a.stop ≤ b.addr
def Apart (a b : Block) : Prop := ∀ unit, ¬ (a.Holds unit ∧ b.Holds unit)

end Block

def Ascending (blocks : List Block) : Prop := blocks.Pairwise Block.Before
def Covers (blocks : List Block) (unit : Nat) : Prop := ∃ b ∈ blocks, b.Holds unit
def total (blocks : List Block) : Nat := (blocks.map Block.size).sum
def Nonempty (blocks : List Block) : Prop := ∀ b ∈ blocks, 0 < b.size

-- What stays in the list of a block that gives up its first n units.
def remainder (n : Nat) (b : Block) (above : List Block) : List Block :=
  if n < b.size then ⟨b.addr + n, b.size - n⟩ :: above else above

-- First fit: the first block of at least n units gives up its first n.
def takeFirst (n : Nat) : List Block → Option (Nat × List Block)
  | [] => none
  | b :: rest =>
      if n ≤ b.size then some (b.addr, remainder n b rest)
      else (takeFirst n rest).map fun (addr, others) => (addr, b :: others)

def joinAfter (b : Block) : List Block → List Block
  | [] => [b]
  | c :: rest => if b.stop = c.addr then ⟨b.addr, b.size + c.size⟩ :: rest else b :: c :: rest

-- Giving a block back between the blocks below and above it.
def joinBetween (below : List Block) (b : Block) (above : List Block) : List Block :=
  match below.getLast? with
  | none => joinAfter b above
  | some a =>
      if a.stop = b.addr then below.dropLast ++ joinAfter ⟨a.addr, a.size + b.size⟩ above else below ++ joinAfter b above

theorem total_append (left right : List Block) : total (left ++ right) = total left + total right := by
  simp [total]

theorem total_cons (b : Block) (rest : List Block) : total (b :: rest) = b.size + total rest := by
  simp [total]

theorem covers_append (left right : List Block) (unit : Nat) : Covers (left ++ right) unit ↔ Covers left unit ∨ Covers right unit := by
  simp [Covers, or_and_right, exists_or]

theorem covers_cons (b : Block) (rest : List Block) (unit : Nat) : Covers (b :: rest) unit ↔ b.Holds unit ∨ Covers rest unit := by
  simp [Covers]

theorem covers_nil (unit : Nat) : ¬ Covers [] unit := by
  simp [Covers]

theorem total_nil : total [] = 0 := rfl

theorem size_le_total (blocks : List Block) (b : Block) (member : b ∈ blocks) : b.size ≤ total blocks := by
  obtain ⟨below, above, rfl⟩ := List.append_of_mem member
  rw [total_append, total_cons]
  omega

theorem length_le_total (blocks : List Block) (nonempty : Nonempty blocks) : blocks.length ≤ total blocks := by
  induction blocks with
  | nil => simp [total]
  | cons b rest ih =>
      have positive := nonempty b (by simp)
      have later := ih fun c member => nonempty c (List.mem_cons_of_mem b member)
      rw [total_cons, List.length_cons]
      omega

-- A merged block stands for its two neighbours.
theorem merged_holds (a b : Block) (meet : a.stop = b.addr) (unit : Nat) :
    Block.Holds ⟨a.addr, a.size + b.size⟩ unit ↔ a.Holds unit ∨ b.Holds unit := by
  simp only [Block.Holds, Block.stop] at meet ⊢
  omega

theorem merged_ascending (below above : List Block) (a b : Block) (meet : a.stop = b.addr)
    (ascending : Ascending (below ++ a :: b :: above)) : Ascending (below ++ ⟨a.addr, a.size + b.size⟩ :: above) := by
  simp only [Ascending, List.pairwise_append, List.pairwise_cons, List.mem_cons, forall_eq_or_imp, Block.Before, Block.stop] at *
  obtain ⟨belowAsc, ⟨⟨_, fromA⟩, fromB, aboveAsc⟩, cross⟩ := ascending
  refine ⟨belowAsc, ⟨fun c member => ?_, aboveAsc⟩, fun c member => ⟨(cross c member).1, (cross c member).2.2⟩⟩
  have bound := fromB c member
  omega

theorem join_after_spec (below above : List Block) (b : Block) (ascending : Ascending (below ++ b :: above))
    (nonempty : Nonempty (below ++ b :: above)) :
    Ascending (below ++ joinAfter b above) ∧ Nonempty (below ++ joinAfter b above) ∧
      total (below ++ joinAfter b above) = total (below ++ b :: above) ∧
      ∀ unit, Covers (below ++ joinAfter b above) unit ↔ Covers (below ++ b :: above) unit := by
  cases above with
  | nil => exact ⟨ascending, nonempty, rfl, fun _ => Iff.rfl⟩
  | cons c rest =>
      by_cases meet : b.stop = c.addr
      · simp only [joinAfter, if_pos meet]
        refine ⟨merged_ascending below rest b c meet ascending, ?_, ?_, fun unit => ?_⟩
        · intro d member
          have positive := nonempty b (by simp)
          simp only [List.mem_append, List.mem_cons] at member
          rcases member with inBelow | here | inRest
          · exact nonempty d (by simp [inBelow])
          · simp only [here]
            omega
          · exact nonempty d (by simp [inRest])
        · simp only [total_append, total_cons]
          omega
        · simp only [covers_append, covers_cons, merged_holds b c meet, or_assoc]
      · rw [joinAfter, if_neg meet]
        exact ⟨ascending, nonempty, rfl, fun _ => Iff.rfl⟩

theorem join_between_spec (below above : List Block) (b : Block) (ascending : Ascending (below ++ b :: above))
    (nonempty : Nonempty (below ++ b :: above)) :
    Ascending (joinBetween below b above) ∧ Nonempty (joinBetween below b above) ∧
      total (joinBetween below b above) = total (below ++ b :: above) ∧
      ∀ unit, Covers (joinBetween below b above) unit ↔ Covers (below ++ b :: above) unit := by
  cases below using List.reverseRecOn with
  | nil => exact join_after_spec [] above b ascending nonempty
  | append_singleton front a _ =>
      simp only [joinBetween, List.getLast?_concat, List.dropLast_concat]
      by_cases meet : a.stop = b.addr
      · rw [if_pos meet]
        have flat : front ++ [a] ++ b :: above = front ++ a :: b :: above := by simp
        rw [flat] at ascending nonempty
        have positive : Nonempty (front ++ ⟨a.addr, a.size + b.size⟩ :: above) := by
          intro d member
          have first := nonempty a (by simp)
          simp only [List.mem_append, List.mem_cons] at member
          rcases member with inFront | here | inAbove
          · exact nonempty d (by simp [inFront])
          · simp only [here]
            omega
          · exact nonempty d (by simp [inAbove])
        obtain ⟨joinedAsc, joinedPos, joinedTotal, joinedCovers⟩ :=
          join_after_spec front above ⟨a.addr, a.size + b.size⟩ (merged_ascending front above a b meet ascending) positive
        refine ⟨joinedAsc, joinedPos, ?_, fun unit => ?_⟩
        · rw [joinedTotal, flat]
          simp only [total_append, total_cons]
          omega
        · rw [joinedCovers, flat]
          simp only [covers_append, covers_cons, merged_holds a b meet, or_assoc]
      · rw [if_neg meet]
        exact join_after_spec (front ++ [a]) above b ascending nonempty

theorem take_first_none (n : Nat) (blocks : List Block) : takeFirst n blocks = none ↔ ∀ b ∈ blocks, b.size < n := by
  induction blocks with
  | nil => simp [takeFirst]
  | cons b rest ih =>
      by_cases fits : n ≤ b.size
      · have large : ¬ b.size < n := by omega
        simp [takeFirst, fits, large]
      · simp only [takeFirst, if_neg fits, Option.map_eq_none_iff, ih, List.mem_cons, forall_eq_or_imp]
        exact ⟨fun later => ⟨by omega, later⟩, And.right⟩

-- The chosen block, and what the list holds in its place.
theorem take_first_some (n addr : Nat) (blocks rest : List Block) (taken : takeFirst n blocks = some (addr, rest)) :
    ∃ below b above, blocks = below ++ b :: above ∧ (∀ a ∈ below, a.size < n) ∧ n ≤ b.size ∧ addr = b.addr ∧
      rest = below ++ remainder n b above := by
  induction blocks generalizing rest with
  | nil => simp [takeFirst] at taken
  | cons b above ih =>
      by_cases fits : n ≤ b.size
      · simp only [takeFirst, if_pos fits, Option.some.injEq, Prod.mk.injEq] at taken
        exact ⟨[], b, above, rfl, by simp, fits, taken.1.symm, taken.2.symm⟩
      · simp only [takeFirst, if_neg fits, Option.map_eq_some_iff, Prod.mk.injEq] at taken
        obtain ⟨⟨found, others⟩, inner, sameAddr, sameRest⟩ := taken
        simp only at sameAddr sameRest
        subst sameAddr sameRest
        obtain ⟨below, c, later, split, small, enough, atC, shape⟩ := ih others inner
        refine ⟨b :: below, c, later, by rw [split, List.cons_append], ?_, enough, atC, by rw [shape, List.cons_append]⟩
        intro a member
        rcases List.mem_cons.mp member with here | inBelow
        · rw [here]
          omega
        · exact small a inBelow

theorem split_holds (b : Block) (n : Nat) (fits : n < b.size) (unit : Nat) :
    b.Holds unit ↔ Block.Holds ⟨b.addr + n, b.size - n⟩ unit ∨ Block.Holds ⟨b.addr, n⟩ unit := by
  simp only [Block.Holds, Block.stop]
  omega

theorem ascending_apart (below above : List Block) (b : Block) (ascending : Ascending (below ++ b :: above)) (unit : Nat)
    (holds : b.Holds unit) : ¬ Covers (below ++ above) unit := by
  simp only [Ascending, List.pairwise_append, List.pairwise_cons, List.mem_cons, Block.Before, Block.stop] at ascending
  obtain ⟨_, ⟨fromB, _⟩, cross⟩ := ascending
  intro covered
  simp only [Block.Holds, Block.stop] at holds
  rcases (covers_append below above unit).mp covered with ⟨c, member, inside⟩ | ⟨c, member, inside⟩
  · have bound := cross c member b (Or.inl rfl)
    simp only [Block.Holds, Block.stop] at inside
    omega
  · have bound := fromB c member
    simp only [Block.Holds, Block.stop] at inside
    omega

theorem remainder_spec (n : Nat) (below above : List Block) (b : Block) (ascending : Ascending (below ++ b :: above))
    (nonempty : Nonempty (below ++ b :: above)) (enough : n ≤ b.size) :
    Ascending (below ++ remainder n b above) ∧ Nonempty (below ++ remainder n b above) ∧
      total (below ++ remainder n b above) + n = total (below ++ b :: above) ∧
      (∀ unit, Covers (below ++ b :: above) unit ↔ Covers (below ++ remainder n b above) unit ∨ Block.Holds ⟨b.addr, n⟩ unit) ∧
      ∀ unit, Block.Holds ⟨b.addr, n⟩ unit → ¬ Covers (below ++ remainder n b above) unit := by
  have apart := ascending_apart below above b ascending
  by_cases fits : n < b.size
  · rw [remainder, if_pos fits]
    refine ⟨?_, ?_, ?_, fun unit => ?_, fun unit holds covered => ?_⟩
    · simp only [Ascending, List.pairwise_append, List.pairwise_cons, List.mem_cons, forall_eq_or_imp, Block.Before, Block.stop] at *
      obtain ⟨belowAsc, ⟨fromB, aboveAsc⟩, cross⟩ := ascending
      refine ⟨belowAsc, ⟨fun c member => ?_, aboveAsc⟩, fun c member => ⟨?_, (cross c member).2⟩⟩
      · have bound := fromB c member
        omega
      · have bound := (cross c member).1
        omega
    · intro c member
      simp only [List.mem_append, List.mem_cons] at member
      rcases member with inBelow | here | inAbove
      · exact nonempty c (by simp [inBelow])
      · simp only [here]
        omega
      · exact nonempty c (by simp [inAbove])
    · simp only [total_append, total_cons]
      omega
    · simp only [covers_append, covers_cons, split_holds b n fits unit]
      tauto
    · have inB : b.Holds unit := (split_holds b n fits unit).mpr (Or.inr holds)
      have outside := apart unit inB
      simp only [covers_append, covers_cons] at covered outside
      simp only [Block.Holds, Block.stop] at covered holds
      rcases covered with inBelow | here | inAbove
      · exact outside (Or.inl inBelow)
      · omega
      · exact outside (Or.inr inAbove)
  · rw [remainder, if_neg fits]
    have whole : n = b.size := by omega
    subst whole
    refine ⟨?_, ?_, ?_, fun unit => ?_, apart⟩
    · exact ascending.sublist ((List.sublist_cons_self b above).append_left below)
    · intro c member
      rcases List.mem_append.mp member with inBelow | inAbove
      · exact nonempty c (by simp [inBelow])
      · exact nonempty c (by simp [inAbove])
    · simp only [total_append, total_cons]
      omega
    · simp only [covers_append, covers_cons]
      tauto

theorem take_first_spec (n addr : Nat) (blocks rest : List Block) (ascending : Ascending blocks) (nonempty : Nonempty blocks)
    (taken : takeFirst n blocks = some (addr, rest)) :
    Ascending rest ∧ Nonempty rest ∧ total rest + n = total blocks ∧
      (∀ unit, Covers blocks unit ↔ Covers rest unit ∨ Block.Holds ⟨addr, n⟩ unit) ∧
      ∀ unit, Block.Holds ⟨addr, n⟩ unit → ¬ Covers rest unit := by
  obtain ⟨below, b, above, rfl, _, enough, rfl, rfl⟩ := take_first_some n addr blocks rest taken
  exact remainder_spec n below above b ascending nonempty enough

-- No block ends where another begins.
def Coalesced (blocks : List Block) : Prop := ∀ a ∈ blocks, ∀ b ∈ blocks, a.stop ≠ b.addr

theorem coalesced_subset (blocks others : List Block) (subset : ∀ b ∈ others, b ∈ blocks) (coalesced : Coalesced blocks) : Coalesced others :=
  fun a first b second => coalesced a (subset a first) b (subset b second)

theorem coalesced_remainder (n : Nat) (below above : List Block) (b : Block) (ascending : Ascending (below ++ b :: above))
    (nonempty : Nonempty (below ++ b :: above)) (coalesced : Coalesced (below ++ b :: above)) (positive : 0 < n) :
    Coalesced (below ++ remainder n b above) := by
  by_cases fits : n < b.size
  · rw [remainder, if_pos fits]
    simp only [Ascending, List.pairwise_append, List.pairwise_cons, List.mem_cons, Block.Before] at ascending
    obtain ⟨_, ⟨fromB, _⟩, cross⟩ := ascending
    have stop : Block.stop ⟨b.addr + n, b.size - n⟩ = b.stop := by
      simp only [Block.stop]
      omega
    -- The stops are those of before, and one of the beginnings has moved up.
    have stops : ∀ a ∈ below ++ ⟨b.addr + n, b.size - n⟩ :: above, ∃ c ∈ below ++ b :: above, c.stop = a.stop := by
      intro a member
      simp only [List.mem_append, List.mem_cons] at member
      rcases member with inBelow | here | inAbove
      · exact ⟨a, by simp [inBelow], rfl⟩
      · exact ⟨b, by simp, by rw [here, stop]⟩
      · exact ⟨a, by simp [inAbove], rfl⟩
    intro a first c second meet
    obtain ⟨d, inOld, same⟩ := stops a first
    simp only [List.mem_append, List.mem_cons] at second
    rcases second with inBelow | here | inAbove
    · exact coalesced d inOld c (by simp [inBelow]) (same.trans meet)
    · subst here
      have at' : d.stop = b.addr + n := same.trans meet
      simp only [List.mem_append, List.mem_cons] at inOld
      rcases inOld with inBelow | isB | inAbove
      · have before := cross d inBelow b (Or.inl rfl)
        omega
      · simp only [isB, Block.stop] at at'
        omega
      · have after := fromB d inAbove
        have size := nonempty d (by simp [inAbove])
        simp only [Block.stop] at after at'
        omega
    · exact coalesced d inOld c (by simp [inAbove]) (same.trans meet)
  · rw [remainder, if_neg fits]
    exact coalesced_subset _ _ (fun c member => by
      simp only [List.mem_append, List.mem_cons] at member ⊢
      tauto) coalesced

-- A block that joins the one after it, with nothing before that ends where it begins.
theorem coalesced_join_after (below above : List Block) (b : Block) (ascending : Ascending (below ++ b :: above))
    (nonempty : Nonempty (below ++ b :: above)) (coalesced : Coalesced (below ++ above)) (apart : ∀ a ∈ below, a.stop ≠ b.addr) :
    Coalesced (below ++ joinAfter b above) := by
  simp only [Ascending, List.pairwise_append, List.pairwise_cons, List.mem_cons, Block.Before] at ascending
  obtain ⟨_, ⟨fromB, sorted⟩, cross⟩ := ascending
  have size := nonempty b (by simp)
  cases above with
  | nil =>
      intro a first c second meet
      simp only [joinAfter, List.mem_append, List.mem_singleton] at first second
      rcases first with inBelow | isB
      · rcases second with inBelow' | isB'
        · exact coalesced a (by simp [inBelow]) c (by simp [inBelow']) meet
        · exact apart a inBelow (isB' ▸ meet)
      · rcases second with inBelow' | isB'
        · have before := cross c inBelow' b (Or.inl rfl)
          simp only [isB, Block.stop] at meet before
          omega
        · simp only [isB, isB', Block.stop] at meet
          omega
  | cons d rest =>
      have dAfter := fromB d (by simp)
      have dSize := nonempty d (by simp)
      by_cases joins : b.stop = d.addr
      · simp only [joinAfter, if_pos joins]
        intro a first c second meet
        have whole : Block.stop ⟨b.addr, b.size + d.size⟩ = d.stop := by
          simp only [Block.stop] at joins ⊢
          omega
        simp only [List.mem_append, List.mem_cons] at first second
        rcases first with inBelow | isB | inRest
        · rcases second with inBelow' | isB' | inRest'
          · exact coalesced a (by simp [inBelow]) c (by simp [inBelow']) meet
          · exact apart a inBelow (by rw [meet, isB'])
          · exact coalesced a (by simp [inBelow]) c (by simp [inRest']) meet
        · rw [isB, whole] at meet
          rcases second with inBelow' | isB' | inRest'
          · have before := cross c inBelow' b (Or.inl rfl)
            have cSize := nonempty c (by simp [inBelow'])
            simp only [Block.stop] at meet before dAfter
            omega
          · simp only [isB', Block.stop] at meet dAfter
            omega
          · exact coalesced d (by simp) c (by simp [inRest']) meet
        · rcases second with inBelow' | isB' | inRest'
          · exact coalesced a (by simp [inRest]) c (by simp [inBelow']) meet
          · have after := fromB a (by simp [inRest])
            simp only [isB', Block.stop] at meet after
            omega
          · exact coalesced a (by simp [inRest]) c (by simp [inRest']) meet
      · simp only [joinAfter, if_neg joins]
        intro a first c second meet
        simp only [List.mem_append, List.mem_cons] at first second
        have old : ∀ x, x ∈ below ∨ x = b ∨ x = d ∨ x ∈ rest → x = b ∨ x ∈ below ++ d :: rest := by
          intro x inside
          simp only [List.mem_append, List.mem_cons]
          tauto
        rcases old a first with isB | inOld
        · rcases old c second with isB' | inOld'
          · simp only [isB, isB', Block.stop] at meet
            omega
          · simp only [List.mem_append, List.mem_cons] at inOld'
            rcases inOld' with inBelow | isD | inRest
            · have before := cross c inBelow b (Or.inl rfl)
              simp only [isB, Block.stop] at meet before
              omega
            · exact joins (by rw [← isB, meet, isD])
            · have behind := (List.pairwise_cons.mp sorted).1 c inRest
              simp only [Block.Before, isB, Block.stop] at meet behind dAfter
              omega
        · rcases old c second with isB' | inOld'
          · simp only [List.mem_append, List.mem_cons] at inOld
            rcases inOld with inBelow | isD | inRest
            · exact apart a inBelow (by rw [meet, isB'])
            · simp only [isD, isB', Block.stop] at meet dAfter
              omega
            · have after := fromB a (by simp [inRest])
              simp only [isB', Block.stop] at meet after
              omega
          · exact coalesced a inOld c inOld' meet

theorem coalesced_join_between (below above : List Block) (b : Block) (ascending : Ascending (below ++ b :: above))
    (nonempty : Nonempty (below ++ b :: above)) (coalesced : Coalesced (below ++ above)) : Coalesced (joinBetween below b above) := by
  cases below using List.reverseRecOn with
  | nil => exact coalesced_join_after [] above b ascending nonempty coalesced (by simp)
  | append_singleton front a _ =>
      simp only [joinBetween, List.getLast?_concat, List.dropLast_concat]
      have flat : front ++ [a] ++ b :: above = front ++ a :: b :: above := by simp
      have sizeA := nonempty a (by simp)
      by_cases meet : a.stop = b.addr
      · rw [if_pos meet]
        rw [flat] at ascending nonempty
        refine coalesced_join_after front above ⟨a.addr, a.size + b.size⟩ (merged_ascending front above a b meet ascending) ?_ ?_ ?_
        · intro d member
          simp only [List.mem_append, List.mem_cons] at member
          rcases member with inFront | here | inAbove
          · exact nonempty d (by simp [inFront])
          · simp only [here]
            omega
          · exact nonempty d (by simp [inAbove])
        · exact coalesced_subset _ _ (fun c member => by
            simp only [List.mem_append, List.mem_cons] at member ⊢
            tauto) coalesced
        · exact fun c member => coalesced c (by simp [member]) a (by simp)
      · rw [if_neg meet]
        refine coalesced_join_after (front ++ [a]) above b ascending nonempty coalesced fun c member => ?_
        rcases List.mem_append.mp member with inFront | isA
        · simp only [Ascending, List.pairwise_append, List.pairwise_cons, List.mem_cons, List.mem_append, Block.Before] at ascending
          have before := ascending.1.2.2 c inFront a (by simp)
          have after := ascending.2.2 a (by simp) b (by simp)
          simp only [Block.stop] at before after ⊢
          omega
        · exact List.mem_singleton.mp isA ▸ meet

instance : Std.Symm Block.Apart := ⟨fun _ _ apart unit both => apart unit both.symm⟩

theorem apart_unique (blocks : List Block) (apart : blocks.Pairwise Block.Apart) (a b : Block) (first : a ∈ blocks) (second : b ∈ blocks)
    (unit : Nat) (inA : a.Holds unit) (inB : b.Holds unit) : a = b := by
  by_contra differ
  exact apart.forall first second differ unit ⟨inA, inB⟩

-- Two ways to cut the same units into runs that do not touch have the same runs.
theorem coalesced_member (left right : List Block) (b : Block) (member : b ∈ left) (nonempty : Nonempty left) (leftApart : left.Pairwise Block.Apart)
    (leftWhole : Coalesced left) (rightWhole : Coalesced right) (rightApart : right.Pairwise Block.Apart) (rightNonempty : Nonempty right)
    (same : ∀ unit, Covers left unit ↔ Covers right unit) : b ∈ right := by
  have size := nonempty b member
  have first : b.Holds b.addr := ⟨Nat.le_refl _, by simp only [Block.stop]; omega⟩
  obtain ⟨c, inRight, begins, ends⟩ := (same b.addr).mp ⟨b, member, first⟩
  have cSize := rightNonempty c inRight
  -- Neither of the two reaches further down than the other.
  have bottom : c.addr = b.addr := by
    by_contra differ
    obtain ⟨d, inLeft, low, high⟩ := (same (b.addr - 1)).mpr ⟨c, inRight, by omega, by omega⟩
    by_cases reaches : b.addr < d.stop
    · have equal := apart_unique left leftApart d b inLeft member b.addr ⟨by omega, reaches⟩ first
      subst equal
      omega
    · exact leftWhole d inLeft b member (by omega)
  have last : ∀ x : Block, 0 < x.size → x.Holds (x.stop - 1) := fun x positive => ⟨by simp only [Block.stop]; omega, by simp only [Block.stop]; omega⟩
  -- And neither further up.
  have top : c.stop = b.stop := by
    rcases Nat.lt_trichotomy c.stop b.stop with less | equal | more
    · obtain ⟨d, inRight', low, high⟩ := (same c.stop).mp ⟨b, member, by simp only [Block.stop] at less ⊢; omega, less⟩
      by_cases before : d.addr < c.stop
      · have equal := apart_unique right rightApart d c inRight' inRight (c.stop - 1) ⟨by omega, by omega⟩ (last c cSize)
        subst equal
        omega
      · exact absurd (by omega : c.stop = d.addr) (rightWhole c inRight d inRight')
    · exact equal
    · obtain ⟨d, inLeft, low, high⟩ := (same b.stop).mpr ⟨c, inRight, by simp only [Block.stop] at more ⊢; omega, more⟩
      by_cases before : d.addr < b.stop
      · have equal := apart_unique left leftApart d b inLeft member (b.stop - 1) ⟨by omega, by omega⟩ (last b size)
        subst equal
        omega
      · exact absurd (by omega : b.stop = d.addr) (leftWhole b member d inLeft)
  obtain ⟨addr, extent⟩ := c
  obtain ⟨addr', extent'⟩ := b
  simp only [Block.stop] at bottom top
  obtain rfl : addr = addr' := bottom
  obtain rfl : extent = extent' := by omega
  exact inRight

theorem coalesced_unique (left right : List Block) (leftNonempty : Nonempty left) (rightNonempty : Nonempty right)
    (leftApart : left.Pairwise Block.Apart) (rightApart : right.Pairwise Block.Apart) (leftWhole : Coalesced left) (rightWhole : Coalesced right)
    (same : ∀ unit, Covers left unit ↔ Covers right unit) : left.Perm right := by
  have noTwice : ∀ blocks : List Block, Nonempty blocks → blocks.Pairwise Block.Apart → blocks.Nodup := by
    intro blocks nonempty apart
    refine List.Pairwise.imp_of_mem ?_ apart
    intro a b first _ away equal
    have size := nonempty a first
    exact away a.addr ⟨⟨Nat.le_refl _, by simp only [Block.stop]; omega⟩, by rw [← equal]; exact ⟨Nat.le_refl _, by simp only [Block.stop]; omega⟩⟩
  refine (List.perm_ext_iff_of_nodup (noTwice left leftNonempty leftApart) (noTwice right rightNonempty rightApart)).mpr fun b => ⟨fun member => ?_, fun member => ?_⟩
  · exact coalesced_member left right b member leftNonempty leftApart leftWhole rightWhole rightApart rightNonempty same
  · exact coalesced_member right left b member rightNonempty rightApart rightWhole leftWhole leftApart leftNonempty fun unit => (same unit).symm

theorem ascending_pairwise_apart (blocks : List Block) (ascending : Ascending blocks) : blocks.Pairwise Block.Apart := by
  refine ascending.imp fun before unit both => ?_
  simp only [Block.Before, Block.Holds, Block.stop] at before both
  omega

-- A run of units of the blocks touches a new block only where one of them does.
theorem part_touches (blocks : List Block) (b part : Block) (bSize : 0 < b.size) (partSize : 0 < part.size)
    (inside : ∀ unit, part.Holds unit → Covers blocks unit) (apart : ∀ unit, b.Holds unit → ¬ Covers blocks unit)
    (untouched : ∀ c ∈ blocks, c.stop ≠ b.addr ∧ b.stop ≠ c.addr) : part.stop ≠ b.addr ∧ b.stop ≠ part.addr := by
  constructor
  · intro meet
    obtain ⟨c, member, low, high⟩ := inside (part.stop - 1) ⟨by simp only [Block.stop]; omega, by simp only [Block.stop]; omega⟩
    by_cases ends : c.stop = part.stop
    · exact (untouched c member).1 (ends.trans meet)
    · exact apart b.addr ⟨Nat.le_refl _, by simp only [Block.stop]; omega⟩ ⟨c, member, by omega, by omega⟩
  · intro meet
    obtain ⟨c, member, low, high⟩ := inside part.addr ⟨Nat.le_refl _, by simp only [Block.stop]; omega⟩
    by_cases begins : c.addr = part.addr
    · exact (untouched c member).2 (meet.trans begins.symm)
    · exact apart (b.stop - 1) ⟨by simp only [Block.stop]; omega, by simp only [Block.stop]; omega⟩ ⟨c, member, by omega, by omega⟩

theorem coalesced_insert (below above : List Block) (b : Block) (bSize : 0 < b.size) (coalesced : Coalesced (below ++ above))
    (untouched : ∀ c ∈ below ++ above, c.stop ≠ b.addr ∧ b.stop ≠ c.addr) : Coalesced (below ++ b :: above) := by
  have old : ∀ c ∈ below ++ b :: above, c = b ∨ c ∈ below ++ above := by
    intro c member
    simp only [List.mem_append, List.mem_cons] at member ⊢
    tauto
  intro a first c second
  rcases old a first with rfl | inOld
  · rcases old c second with rfl | inOld'
    · simp only [Block.stop, ne_eq]
      omega
    · exact (untouched c inOld').2
  · rcases old c second with rfl | inOld'
    · exact (untouched a inOld).1
    · exact coalesced a inOld c inOld'

-- A block that joins the one after it begins where it did, and joins it too as the
-- end of a longer one.
theorem join_after_cons (b : Block) (above : List Block) : ∃ c rest, joinAfter b above = c :: rest ∧ c.addr = b.addr := by
  cases above with
  | nil => exact ⟨b, [], rfl, rfl⟩
  | cons d rest =>
      by_cases meet : b.stop = d.addr
      · exact ⟨⟨b.addr, b.size + d.size⟩, rest, if_pos meet, rfl⟩
      · exact ⟨b, d :: rest, if_neg meet, rfl⟩

theorem join_after_grow (a b c : Block) (above rest : List Block) (meet : a.stop = b.addr) (joined : joinAfter b above = c :: rest) :
    joinAfter ⟨a.addr, a.size + b.size⟩ above = ⟨a.addr, a.size + c.size⟩ :: rest := by
  have stop : Block.stop ⟨a.addr, a.size + b.size⟩ = b.stop := by
    simp only [Block.stop] at meet ⊢
    omega
  cases above with
  | nil =>
      obtain ⟨rfl, rfl⟩ : b = c ∧ [] = rest := by simpa [joinAfter] using joined
      rfl
  | cons d others =>
      by_cases touches : b.stop = d.addr
      · simp only [joinAfter, if_pos touches, List.cons.injEq] at joined
        obtain ⟨rfl, rfl⟩ := joined
        simp only [joinAfter, stop, if_pos touches, Nat.add_assoc]
      · simp only [joinAfter, if_neg touches, List.cons.injEq] at joined
        obtain ⟨rfl, rfl⟩ := joined
        simp only [joinAfter, stop, if_neg touches]

-- The place of a block that shares no unit with the ascending ones.
theorem ascending_place (blocks : List Block) (b : Block) (ascending : Ascending blocks) (nonempty : Nonempty blocks) (positive : 0 < b.size)
    (apart : ∀ unit, b.Holds unit → ¬ Covers blocks unit) : ∃ below above, blocks = below ++ above ∧ Ascending (below ++ b :: above) := by
  induction blocks with
  | nil => exact ⟨[], [], rfl, List.pairwise_singleton _ _⟩
  | cons c rest ih =>
      obtain ⟨fromC, sorted⟩ := List.pairwise_cons.mp ascending
      have cSize := nonempty c (by simp)
      have clear : ∀ unit, b.Holds unit → ¬ c.Holds unit := fun unit holds inside => apart unit holds ⟨c, by simp, inside⟩
      by_cases lower : b.addr < c.addr
      · have before : b.stop ≤ c.addr := by
          by_contra reaches
          exact clear c.addr ⟨by omega, by omega⟩ ⟨Nat.le_refl _, by simp only [Block.stop]; omega⟩
        refine ⟨[], c :: rest, rfl, List.pairwise_cons.mpr ⟨fun d member => ?_, ascending⟩⟩
        rcases List.mem_cons.mp member with here | later
        · exact here ▸ before
        · have behind := fromC d later
          simp only [Block.Before, Block.stop] at behind before ⊢
          omega
      · have after : c.stop ≤ b.addr := by
          by_contra reaches
          exact clear b.addr ⟨Nat.le_refl _, by simp only [Block.stop]; omega⟩ ⟨by omega, by omega⟩
        obtain ⟨below, above, rfl, whole⟩ := ih sorted (fun d member => nonempty d (by simp [member]))
          fun unit holds covered => apart unit holds ((covers_cons c rest unit).mpr (.inr covered))
        refine ⟨c :: below, above, rfl, List.pairwise_cons.mpr ⟨fun d member => ?_, whole⟩⟩
        replace member : d ∈ below ++ b :: above := member
        simp only [List.mem_append, List.mem_cons] at member
        rcases member with inBelow | here | inAbove
        · exact fromC d (by simp [inBelow])
        · exact here ▸ after
        · exact fromC d (by simp [inAbove])

theorem join_after_keeps (b d : Block) (above : List Block) (member : d ∈ above) (away : b.stop ≠ d.addr) : d ∈ joinAfter b above := by
  cases above with
  | nil => cases member
  | cons c rest =>
      by_cases meet : b.stop = c.addr
      · rw [joinAfter, if_pos meet]
        rcases List.mem_cons.mp member with here | later
        · exact absurd (here ▸ meet) away
        · simp [later]
      · rw [joinAfter, if_neg meet]
        exact List.mem_cons_of_mem b member

-- A block that the new one does not touch stays, and some block takes the new one in.
theorem join_between_keeps (below above : List Block) (b d : Block) (member : d ∈ below ++ above) (before : d.stop ≠ b.addr) (after : b.stop ≠ d.addr) :
    d ∈ joinBetween below b above := by
  rcases List.eq_nil_or_concat' below with rfl | ⟨front, a, rfl⟩
  · exact join_after_keeps b d above (by simpa using member) after
  · simp only [joinBetween, List.getLast?_concat, List.dropLast_concat]
    simp only [List.mem_append, List.mem_singleton] at member
    by_cases meet : a.stop = b.addr
    · rw [if_pos meet, List.mem_append]
      rcases member with (inFront | here) | inAbove
      · exact .inl inFront
      · exact absurd (here ▸ meet) before
      · refine .inr (join_after_keeps _ d above inAbove ?_)
        simp only [Block.stop] at meet after ⊢
        omega
    · rw [if_neg meet, List.mem_append]
      rcases member with old | inAbove
      · exact .inl (by simpa using old)
      · exact .inr (join_after_keeps b d above inAbove after)

theorem join_between_holds (below above : List Block) (b : Block) (positive : 0 < b.size) :
    ∃ c ∈ joinBetween below b above, b.size ≤ c.size ∧ c.Holds b.addr := by
  obtain ⟨c, rest, joined, same⟩ := join_after_cons b above
  have bound : b.size ≤ c.size := by
    cases above with
    | nil =>
        obtain ⟨rfl, _⟩ : b = c ∧ [] = rest := by simpa [joinAfter] using joined
        exact Nat.le_refl _
    | cons d others =>
        by_cases meet : b.stop = d.addr
        · simp only [joinAfter, if_pos meet, List.cons.injEq] at joined
          rw [← joined.1]
          exact Nat.le_add_right _ _
        · simp only [joinAfter, if_neg meet, List.cons.injEq] at joined
          exact Nat.le_of_eq (congrArg Block.size joined.1)
  have holds : c.Holds b.addr := ⟨Nat.le_of_eq same, by simp only [Block.stop]; omega⟩
  rcases List.eq_nil_or_concat' below with rfl | ⟨front, a, rfl⟩
  · exact ⟨c, by simp [joinBetween, joined], bound, holds⟩
  · by_cases meet : a.stop = b.addr
    · refine ⟨⟨a.addr, a.size + c.size⟩, ?_, Nat.le_add_left_of_le bound, ?_, ?_⟩
      · simp [joinBetween, meet, join_after_grow a b c above rest meet joined]
      · simp only [Block.stop] at meet ⊢
        omega
      · simp only [Block.stop] at meet ⊢
        omega
    · exact ⟨c, by simp [joinBetween, meet, joined], bound, holds⟩

-- Ascending blocks are no longer than the space they lie in.
theorem ascending_total (blocks : List Block) (limit : Nat) (ascending : Ascending blocks) (within : ∀ b ∈ blocks, b.stop ≤ limit) :
    total blocks ≤ limit := by
  induction blocks using List.reverseRecOn generalizing limit with
  | nil => exact Nat.zero_le _
  | append_singleton front b ih =>
      obtain ⟨sorted, _, cross⟩ := List.pairwise_append.mp ascending
      have bound := ih b.addr sorted fun a member => cross a member b (by simp)
      have last := within b (by simp)
      simp only [total_append, total_cons, total_nil]
      simp only [Block.stop] at last
      omega

end Ucore.Lib
