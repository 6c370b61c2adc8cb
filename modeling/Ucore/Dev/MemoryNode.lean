import Ucore.Dev.DtbWalk

set_option autoImplicit false

namespace Ucore.Dev

open Ucore.Lib

section Flags

-- The flag that the walk reads a property with is whether its node is taken for a memory node.
def Agrees : Bool → List FdtEntry → Prop
  | _, [] => True
  | flag, e :: rest => (e.token.reg?.isSome → e.taken = flag) ∧ Agrees (flagAfter flag e.token) rest

def flagsAfter (flag : Bool) (es : List FdtEntry) : Bool := es.foldl (fun flag e => flagAfter flag e.token) flag

theorem agrees_append (flag : Bool) (first second : List FdtEntry) :
    Agrees flag (first ++ second) ↔ Agrees flag first ∧ Agrees (flagsAfter flag first) second := by
  induction first generalizing flag with
  | nil => simp [Agrees, flagsAfter]
  | cons e rest ih => rw [List.cons_append, Agrees, Agrees, ih, and_assoc, flagsAfter, flagsAfter, List.foldl_cons]

theorem properties_agree (properties : List (Option FdtProperty)) (owner taken : Bool) :
    Agrees taken (properties.map fun property => ⟨propertyToken property, owner, taken⟩) ∧
      flagsAfter taken (properties.map fun property => ⟨propertyToken property, owner, taken⟩) = taken := by
  induction properties with
  | nil => exact ⟨trivial, rfl⟩
  | cons property rest ih =>
      cases property with
      | none => exact ⟨⟨fun _ => rfl, ih.1⟩, ih.2⟩
      | some property => exact ⟨⟨fun _ => rfl, ih.1⟩, ih.2⟩

theorem entries_agree (forest : FdtForest) (first : Bool) : Agrees first (forest.entries first) := by
  induction forest generalizing first with
  | nil => trivial
  | nop rest ih => exact ⟨by simp [FdtToken.reg?], ih first⟩
  | node name properties inner rest ihInner ihRest =>
      obtain ⟨own, still⟩ := properties_agree properties (isMemory name) (beginsMemory name || first)
      refine ⟨by simp [FdtToken.reg?], ?_⟩
      rw [agrees_append, agrees_append]
      refine ⟨own, ?_, by simp [FdtToken.reg?], ihRest false⟩
      rw [show flagAfter first (.beginNode name) = (beginsMemory name || first) from rfl, still]
      exact ihInner _

theorem memory_begins (name : List UInt8) (memory : isMemory name = true) : beginsMemory name = true := by
  simp only [isMemory, decide_eq_true_eq] at memory
  cases memory with
  | inl same => rw [same]; rfl
  | inr at_ =>
      have whole := List.isPrefixOf_iff_prefix.mp at_
      exact List.isPrefixOf_iff_prefix.mpr ((List.prefix_append _ _).trans whole)

theorem owner_taken (forest : FdtForest) (first : Bool) : ∀ e ∈ forest.entries first, e.owner = true → e.taken = true := by
  induction forest generalizing first with
  | nil => simp [FdtForest.entries]
  | nop rest ih =>
      intro e member owner
      cases List.mem_cons.mp member with
      | inl same => simp [same] at owner
      | inr later => exact ih first e later owner
  | node name properties inner rest ihInner ihRest =>
      intro e member owner
      simp only [FdtForest.entries, List.mem_cons, List.mem_append, List.mem_map] at member
      rcases member with same | ⟨property, _, same⟩ | inside | same | later
      · simp [same] at owner
      · subst same
        simp [memory_begins name owner]
      · exact ihInner _ e inside owner
      · simp [same] at owner
      · exact ihRest false e later owner

theorem entries_not_fin (forest : FdtForest) (first : Bool) : ∀ e ∈ forest.entries first, e.token ≠ .fin := by
  induction forest generalizing first with
  | nil => simp [FdtForest.entries]
  | nop rest ih =>
      intro e member
      cases List.mem_cons.mp member with
      | inl same => simp [same]
      | inr later => exact ih first e later
  | node name properties inner rest ihInner ihRest =>
      intro e member
      simp only [FdtForest.entries, List.mem_cons, List.mem_append, List.mem_map] at member
      rcases member with same | ⟨property, _, same⟩ | inside | same | later
      · simp [same]
      · subst same
        cases property <;> simp [propertyToken]
      · exact ihInner _ e inside
      · simp [same]
      · exact ihRest false e later

end Flags

section Runs

variable (mem : Bytes) (stringsBase bytes : Nat)

theorem fdt_steps_append (first second : Nat) (s : FdtState) :
    fdtSteps mem stringsBase bytes s (first + second) = (fdtSteps mem stringsBase bytes s first).bind fun t => fdtSteps mem stringsBase bytes t second := by
  induction first generalizing s with
  | zero => rw [Nat.zero_add, fdtSteps, Option.bind_some]
  | succ n ih =>
      rw [show n + 1 + second = n + second + 1 by omega, fdtSteps, fdtSteps, Option.bind_assoc]
      exact congrArg _ (funext fun t => ih t)

theorem fdt_steps_one (s : FdtState) : fdtSteps mem stringsBase bytes s 1 = fdtStep mem stringsBase bytes s := by
  simp [fdtSteps]

-- Up to the first reg property that is taken, the walk stands at one token after the other.
theorem walk_aligned (es : List FdtEntry) (k structPtr : Nat) (flag : Bool) (held : HoldsAt mem structPtr (encodeTokens (es.map FdtEntry.token)))
    (aligned : structPtr % 4 = 0) (sound : ∀ e ∈ es, e.token.Sound mem stringsBase) (agrees : Agrees flag es) (inner : ∀ e ∈ es, e.token ≠ .fin)
    (reach : (encodeTokens (es.map FdtEntry.token)).length ≤ bytes) (inside : k ≤ es.length)
    (passed : ∀ e ∈ es.take k, e.token.reg?.isSome → e.taken = false) :
    fdtSteps mem stringsBase bytes (.reading structPtr flag) k =
      some (.reading (structPtr + (encodeTokens ((es.map FdtEntry.token).take k)).length) (flagsAfter flag (es.take k))) := by
  induction k generalizing es structPtr flag with
  | zero => simp [fdtSteps, encodeTokens, flagsAfter]
  | succ k ih =>
      cases es with
      | nil => exact absurd inside (by simp)
      | cons e rest =>
          obtain ⟨own, agree⟩ := agrees
          rw [List.map_cons, encodeTokens, List.flatMap_cons, holds_append] at held
          rw [List.map_cons, encodeTokens, List.flatMap_cons, List.length_append] at reach
          have whole := encode_aligned e.token
          have step := token_step mem stringsBase bytes structPtr flag e.token held.1 aligned (sound e (by simp)) (by omega)
          have misses : ¬ (flag = true ∧ e.token.reg?.isSome = true) := fun hit => by
            have taken := passed e (by simp) hit.2
            rw [own hit.2, hit.1] at taken
            cases taken
          have onward := ih rest (structPtr + e.token.encode.length) (flagAfter flag e.token) held.2 (by omega)
            (fun other member => sound other (List.mem_cons_of_mem e member)) agree (fun other member => inner other (List.mem_cons_of_mem e member))
            (by simp only [encodeTokens]; omega) (Nat.le_of_succ_le_succ inside)
            (fun other member => passed other (by rw [List.take_succ_cons]; exact List.mem_cons_of_mem e member))
          rw [fdtSteps, step, stepTo, if_neg misses, if_neg (inner e (by simp)), Option.bind_some, onward, List.map_cons, List.take_succ_cons, List.take_succ_cons,
            encodeTokens, encodeTokens, List.flatMap_cons, List.length_append, flagsAfter, flagsAfter, List.foldl_cons, Nat.add_assoc]

theorem fdt_steps_settled (s : FdtState) (rounds : Nat) (settled : ∀ structPtr flag, s ≠ .reading structPtr flag) :
    fdtSteps mem stringsBase bytes s rounds = some s := by
  induction rounds with
  | zero => rfl
  | succ n ih =>
      cases s with
      | reading structPtr flag => exact absurd rfl (settled structPtr flag)
      | found base size => simp [fdtSteps, fdtStep, ih]
      | notFound => simp [fdtSteps, fdtStep, ih]

theorem encode_tokens_length (tokens : List FdtToken) : tokens.length ≤ (encodeTokens tokens).length := by
  induction tokens with
  | nil => simp
  | cons token rest ih =>
      have longer : 1 ≤ token.encode.length := by
        cases token <;> simp [FdtToken.encode, be32]
      rw [encodeTokens, List.flatMap_cons, List.length_append, List.length_cons, ← encodeTokens]
      omega

end Runs

section Result

variable (mem : Bytes) (dtbVaddr structOff stringsOff : Nat) (forest : FdtForest)

-- The walk comes to every token up to the place of the answer and returns the answer there.
def FindsMemory : Prop :=
  ∀ bytes, forest.struct.length ≤ bytes →
    (∀ k ≤ forest.place, ∃ flag, fdtSteps mem (fdtStringsBase mem dtbVaddr) bytes (fdtStart mem dtbVaddr) k =
      some (.reading (dtbVaddr + structOff + (encodeTokens (forest.tokens.take k)).length) flag)) ∧
    fdtSteps mem (fdtStringsBase mem dtbVaddr) bytes (fdtStart mem dtbVaddr) (forest.place + 1) = some forest.answer ∧
    extractMemoryInfo mem dtbVaddr bytes = some forest.answer

-- No large enough reg property before that place is in a node that is only taken for a memory node.
def Undisturbed : Prop := ∀ e ∈ (forest.entries false).take forest.place, e.token.reg?.isSome → e.taken = false

variable {mem dtbVaddr structOff stringsOff forest}

theorem blob_start (blob : FdtBlob mem dtbVaddr structOff stringsOff forest) :
    fdtStart mem dtbVaddr = .reading (dtbVaddr + structOff) false ∧ fdtStringsBase mem dtbVaddr = dtbVaddr + stringsOff := by
  obtain ⟨first, second⟩ := (holds_append mem _ _ _).mp blob.header
  rw [fdtStart, fdtStringsBase, read_be32 mem _ structOff blob.small.1 first]
  exact ⟨rfl, congrArg _ (read_be32 mem (dtbVaddr + offDtStrings) stringsOff blob.small.2 second)⟩

theorem blob_walk (blob : FdtBlob mem dtbVaddr structOff stringsOff forest) (bytes k : Nat) (reach : forest.struct.length ≤ bytes)
    (inside : k ≤ (forest.entries false).length) (passed : ∀ e ∈ (forest.entries false).take k, e.token.reg?.isSome → e.taken = false) :
    fdtSteps mem (fdtStringsBase mem dtbVaddr) bytes (fdtStart mem dtbVaddr) k =
      some (.reading (dtbVaddr + structOff + (encodeTokens (forest.tokens.take k)).length) (flagsAfter false ((forest.entries false).take k))) := by
  obtain ⟨start, strings⟩ := blob_start blob
  have held := blob.struct
  have length := reach
  rw [FdtForest.struct, encodeTokens, List.flatMap_append, holds_append] at held
  rw [FdtForest.struct, encodeTokens, List.flatMap_append, List.length_append, ← encodeTokens] at length
  rw [start, strings]
  obtain ⟨base, offset⟩ := blob.aligned
  exact walk_aligned mem _ bytes (forest.entries false) k (dtbVaddr + structOff) false held.1 (by omega)
    (fun e member => blob.sound e.token (List.mem_map_of_mem member)) (entries_agree forest false) (entries_not_fin forest false)
    (by rw [← FdtForest.tokens]; omega) inside passed

theorem taken_prefix_flag (es : List FdtEntry) (flag : Bool) (k : Nat) (bound : k < es.length) (agrees : Agrees flag es)
    (reg : (es[k]).token.reg?.isSome) : (es[k]).taken = flagsAfter flag (es.take k) := by
  have split : es.take k ++ es[k] :: es.drop (k + 1) = es := by rw [← List.drop_eq_getElem_cons bound, List.take_append_drop]
  rw [← split, agrees_append] at agrees
  exact agrees.2.1 reg

theorem encode_tokens_aligned (tokens : List FdtToken) : (encodeTokens tokens).length % 4 = 0 := by
  induction tokens with
  | nil => rfl
  | cons token rest ih =>
      have whole := encode_aligned token
      rw [encodeTokens, List.flatMap_cons, List.length_append, ← encodeTokens]
      omega

-- The round at the k-th token; behind the others stands the end.
theorem blob_step (blob : FdtBlob mem dtbVaddr structOff stringsOff forest) (bytes k : Nat) (flag : Bool) (reach : forest.struct.length ≤ bytes)
    (token : FdtToken) (here : (forest.tokens ++ [.fin])[k]? = some token) :
    fdtStep mem (fdtStringsBase mem dtbVaddr) bytes (.reading (dtbVaddr + structOff + (encodeTokens (forest.tokens.take k)).length) flag) =
      some (stepTo (dtbVaddr + structOff + (encodeTokens (forest.tokens.take k)).length) flag token) := by
  obtain ⟨bound, same⟩ := List.getElem?_eq_some_iff.mp here
  have inside : k ≤ forest.tokens.length := by
    rw [List.length_append, List.length_singleton] at bound
    omega
  have before : (forest.tokens ++ [FdtToken.fin]).take k = forest.tokens.take k := List.take_append_of_le_length inside
  have split : forest.tokens ++ [FdtToken.fin] = forest.tokens.take k ++ ([token] ++ (forest.tokens ++ [FdtToken.fin]).drop (k + 1)) := by
    rw [List.singleton_append, ← same, ← List.drop_eq_getElem_cons bound, ← before, List.take_append_drop]
  have held := blob.struct
  have length := reach
  rw [FdtForest.struct, split, encodeTokens, List.flatMap_append, List.flatMap_append, holds_append, holds_append, List.flatMap_singleton] at held
  rw [FdtForest.struct, split, encodeTokens, List.flatMap_append, List.flatMap_append, List.length_append, List.length_append, List.flatMap_singleton] at length
  have whole := encode_tokens_aligned (forest.tokens.take k)
  obtain ⟨base, offset⟩ := blob.aligned
  have sound : token.Sound mem (dtbVaddr + stringsOff) := by
    have member := List.mem_of_getElem? here
    rw [List.mem_append, List.mem_singleton] at member
    cases member with
    | inl own => exact blob.sound token own
    | inr last => rw [last]; trivial
  rw [(blob_start blob).2]
  exact token_step mem _ bytes _ flag token held.2.1 (by omega) sound (by omega)

theorem answer_settled (forest : FdtForest) (structPtr : Nat) (flag : Bool) : forest.answer ≠ .reading structPtr flag := by
  rw [FdtForest.answer]
  cases ((forest.entries false)[forest.place]?).bind fun e => e.token.reg? with
  | none => simp
  | some property => simp [FdtProperty.range]

theorem extract_of_steps (bytes rounds : Nat) (enough : rounds ≤ bytes)
    (settles : fdtSteps mem (fdtStringsBase mem dtbVaddr) bytes (fdtStart mem dtbVaddr) rounds = some forest.answer) :
    extractMemoryInfo mem dtbVaddr bytes = some forest.answer := by
  have later := fdt_steps_append mem (fdtStringsBase mem dtbVaddr) bytes rounds (bytes - rounds) (fdtStart mem dtbVaddr)
  rw [Nat.add_sub_cancel' enough, settles, Option.bind_some, fdt_steps_settled _ _ _ _ _ (answer_settled forest)] at later
  rw [extractMemoryInfo, later, Option.bind_some]
  cases answer : forest.answer with
  | reading structPtr flag => exact absurd answer (answer_settled forest structPtr flag)
  | found base size => rfl
  | notFound => rfl

-- The round at an entry whose reg property is taken returns what is in it.
theorem taken_step (blob : FdtBlob mem dtbVaddr structOff stringsOff forest) (bytes k : Nat) (reach : forest.struct.length ≤ bytes)
    (bound : k < (forest.entries false).length) (property : FdtProperty) (reg : ((forest.entries false)[k]).token.reg? = some property)
    (taken : ((forest.entries false)[k]).taken = true) (passed : ∀ e ∈ (forest.entries false).take k, e.token.reg?.isSome → e.taken = false) :
    fdtSteps mem (fdtStringsBase mem dtbVaddr) bytes (fdtStart mem dtbVaddr) (k + 1) = some property.range := by
  have flag := taken_prefix_flag (forest.entries false) false k bound (entries_agree forest false) (by simp [reg])
  have walked := blob_walk blob bytes k reach (Nat.le_of_lt bound) passed
  have here : (forest.tokens ++ [.fin])[k]? = some ((forest.entries false)[k]).token := by
    rw [List.getElem?_append_left (by rw [FdtForest.tokens, List.length_map]; exact bound), FdtForest.tokens, List.getElem?_map,
      List.getElem?_eq_getElem bound, Option.map_some]
  have step := blob_step blob bytes k true reach _ here
  rw [taken] at flag
  rw [fdt_steps_append, walked, Option.bind_some, fdt_steps_one, ← flag, step, stepTo, if_pos ⟨rfl, by simp [reg]⟩, reg, Option.elim_some]

theorem finds_of_undisturbed (blob : FdtBlob mem dtbVaddr structOff stringsOff forest) (undisturbed : Undisturbed forest) :
    FindsMemory mem dtbVaddr structOff forest := by
  intro bytes reach
  have inside : forest.place ≤ (forest.entries false).length := List.findIdx_le_length
  have stops : fdtSteps mem (fdtStringsBase mem dtbVaddr) bytes (fdtStart mem dtbVaddr) (forest.place + 1) = some forest.answer := by
    by_cases bound : forest.place < (forest.entries false).length
    · have found : ((forest.entries false)[forest.place]).owner = true ∧ ((forest.entries false)[forest.place]).token.reg?.isSome = true := by
        exact Bool.and_eq_true_iff.mp (List.findIdx_getElem (w := bound))
      obtain ⟨property, reg⟩ := Option.isSome_iff_exists.mp found.2
      have taken := owner_taken forest false _ (List.getElem_mem bound) found.1
      rw [taken_step blob bytes forest.place reach bound property reg taken undisturbed, FdtForest.answer, List.getElem?_eq_getElem bound, Option.bind_some]
      rw [reg]
      rfl
    · have last : forest.place = (forest.entries false).length := by omega
      have here : (forest.tokens ++ [.fin])[forest.place]? = some .fin := by
        rw [last, ← List.length_map FdtEntry.token, ← FdtForest.tokens, List.getElem?_concat_length]
      rw [fdt_steps_append, blob_walk blob bytes forest.place reach inside undisturbed, Option.bind_some, fdt_steps_one,
        blob_step blob bytes forest.place _ reach .fin here, FdtForest.answer, List.getElem?_eq_none (by omega)]
      simp [stepTo, FdtToken.reg?]
  refine ⟨fun k below => ⟨_, blob_walk blob bytes k reach (by omega) fun e member => undisturbed e ?_⟩, stops, extract_of_steps bytes _ ?_ stops⟩
  · exact List.take_subset_take_left _ below member
  · have many := encode_tokens_length (forest.tokens ++ [.fin])
    rw [List.length_append, List.length_singleton, FdtForest.tokens, List.length_map, ← FdtForest.tokens, ← FdtForest.struct] at many
    omega

theorem undisturbed_of_finds (blob : FdtBlob mem dtbVaddr structOff stringsOff forest) (finds : FindsMemory mem dtbVaddr structOff forest) :
    Undisturbed forest := by
  by_contra disturbed
  -- The first reg property that is taken stands before the place, and the walk ends there.
  let takes : FdtEntry → Bool := fun e => e.taken && e.token.reg?.isSome
  have early : (forest.entries false).findIdx takes < forest.place := by
    simp only [Undisturbed, not_forall] at disturbed
    obtain ⟨e, member, reg, taken⟩ := disturbed
    obtain ⟨j, bound, same⟩ := List.mem_iff_getElem.mp member
    rw [List.length_take] at bound
    rw [List.getElem_take] at same
    have hit : takes ((forest.entries false)[j]) = true := by
      rw [same]
      simp [takes, reg, taken]
    by_contra late
    have misses := @List.not_of_lt_findIdx _ takes (forest.entries false) j (by omega)
    simp [hit] at misses
  have bound : (forest.entries false).findIdx takes < (forest.entries false).length := Nat.lt_of_lt_of_le early List.findIdx_le_length
  have found := List.findIdx_getElem (w := bound)
  simp only [takes, Bool.and_eq_true] at found
  obtain ⟨property, reg⟩ := Option.isSome_iff_exists.mp found.2
  have passed : ∀ e ∈ (forest.entries false).take ((forest.entries false).findIdx takes), e.token.reg?.isSome → e.taken = false := by
    intro e member large
    obtain ⟨j, inside, same⟩ := List.mem_iff_getElem.mp member
    rw [List.length_take] at inside
    rw [List.getElem_take] at same
    have misses := @List.not_of_lt_findIdx _ takes (forest.entries false) j (by omega)
    rw [same] at misses
    simpa [takes, large] using misses
  have stop := taken_step blob _ _ (Nat.le_refl _) bound property reg found.1 passed
  obtain ⟨flag, walked⟩ := (finds _ (Nat.le_refl _)).1 _ early
  rw [stop] at walked
  cases walked

-- The walk finds the memory of the tree exactly if nothing disturbs it.
theorem memory_found_iff (blob : FdtBlob mem dtbVaddr structOff stringsOff forest) :
    FindsMemory mem dtbVaddr structOff forest ↔ Undisturbed forest :=
  ⟨undisturbed_of_finds blob, finds_of_undisturbed blob⟩

end Result

-- A blob with its header, an empty memory reservation block, the tree and the name reg.
def fdtHeader (structSize stringsSize : Nat) : List UInt8 :=
  be32 0xd00dfeed ++ be32 (56 + structSize + stringsSize) ++ (be32 56 ++ be32 (56 + structSize)) ++
    (be32 40 ++ be32 17 ++ be32 16 ++ be32 0 ++ be32 stringsSize ++ be32 structSize)

def fdtBlob (forest : FdtForest) : List UInt8 := fdtHeader forest.struct.length 4 ++ List.replicate 16 0 ++ forest.struct ++ (regText ++ [0])

def FdtToken.OnlyReg : FdtToken → Prop
  | .beginNode name => 0 ∉ name ∧ name.length < 2 ^ 31
  | .prop property => property.name = regText ∧ property.nameoff = 0 ∧ property.data.length < 2 ^ 32
  | _ => True

theorem fdt_blob_sound (base : Nat) (forest : FdtForest) (aligned : base % 4 = 0) (small : forest.struct.length < 2 ^ 31)
    (sound : ∀ token ∈ forest.tokens, token.OnlyReg) :
    FdtBlob (placed base (fdtBlob forest)) base 56 (56 + forest.struct.length) forest where
  aligned := ⟨aligned, rfl⟩
  small := ⟨by decide, by omega⟩
  header := placed_holds base 8 (fdtBlob forest) _ _ rfl
  struct := placed_holds base 56 (fdtBlob forest) _ _ rfl
  sound := by
    intro token member
    have own := sound token member
    have reg : HoldsAt (placed base (fdtBlob forest)) (base + (56 + forest.struct.length)) (regText ++ [0]) := by
      refine placed_holds base (56 + forest.struct.length) (fdtBlob forest) _ [] ?_
      rw [fdtBlob, List.append_nil, List.drop_left']
      simp [fdtHeader, be32]
      omega
    cases token with
    | beginNode name => exact own
    | prop property =>
        obtain ⟨named, first, short⟩ := own
        rw [FdtToken.Sound, named, first, Nat.add_zero]
        exact ⟨by decide, short, by decide, reg⟩
    | endNode => trivial
    | nop => trivial
    | fin => trivial

-- A root with a device of a name and memory@8, whose registers are at 1 << 32 and 2 << 32, of 4 and 8 bytes.
def boardTree (name : List UInt8) : FdtForest :=
  .node [] [] (.node name [some ⟨0, regText, be32 1 ++ be32 0 ++ be32 0 ++ be32 4⟩] .nil
    (.nop (.node (memoryText ++ [64, 56]) [none, some ⟨0, regText, be32 2 ++ be32 0 ++ be32 0 ++ be32 8⟩] .nil .nil))) .nil

-- The names uart and memory-controller.
def uartText : List UInt8 := [117, 97, 114, 116]
def controllerText : List UInt8 := memoryText ++ [45, 99, 111, 110, 116, 114, 111, 108, 108, 101, 114]

theorem board_blob (name : List UInt8) (plain : 0 ∉ name) (short : name.length < 2 ^ 16) :
    FdtBlob (placed 0 (fdtBlob (boardTree name))) 0 56 (56 + (boardTree name).struct.length) (boardTree name) := by
  refine fdt_blob_sound 0 (boardTree name) rfl ?_ ?_
  · simp only [boardTree, FdtForest.struct, FdtForest.tokens, FdtForest.entries, encodeTokens, FdtToken.encode, padding, be32, propertyToken, memoryText,
      List.map_cons, List.map_nil, List.cons_append, List.nil_append, List.flatMap_cons, List.flatMap_nil, List.length_append, List.length_cons, List.length_nil,
      List.length_replicate]
    omega
  · intro token member
    simp only [boardTree, FdtForest.tokens, FdtForest.entries, propertyToken, List.map_cons, List.map_nil, List.cons_append, List.nil_append,
      List.mem_cons, List.not_mem_nil, or_false] at member
    rcases member with rfl | rfl | rfl | rfl | rfl | rfl | rfl | rfl | rfl | rfl
    · exact ⟨by simp, by simp⟩
    · exact ⟨plain, by omega⟩
    · exact ⟨rfl, rfl, by decide⟩
    · trivial
    · trivial
    · exact ⟨by decide, by decide⟩
    · trivial
    · exact ⟨rfl, rfl, by decide⟩
    · trivial
    · trivial

theorem memory_found_uart : FindsMemory (placed 0 (fdtBlob (boardTree uartText))) 0 56 (boardTree uartText) ∧
    (boardTree uartText).answer = .found (2 * 2 ^ 32) 8 := by
  have undisturbed : Undisturbed (boardTree uartText) := by
    rw [Undisturbed]
    decide
  exact ⟨(memory_found_iff (board_blob uartText (by decide) (by decide))).mpr undisturbed, by decide⟩

-- The register of the controller is given out as the memory.
theorem controller_found : ∃ mem forest, FdtBlob mem 0 56 (56 + forest.struct.length) forest ∧ ¬ FindsMemory mem 0 56 forest ∧
    extractMemoryInfo mem 0 300 = some (.found (2 ^ 32) 4) ∧ forest.answer = .found (2 * 2 ^ 32) 8 := by
  refine ⟨placed 0 (fdtBlob (boardTree controllerText)), boardTree controllerText, board_blob controllerText (by decide) (by decide), ?_, by decide +kernel, by decide⟩
  intro finds
  have undisturbed := undisturbed_of_finds (board_blob controllerText (by decide) (by decide)) finds
  rw [Undisturbed] at undisturbed
  revert undisturbed
  decide

end Ucore.Dev
