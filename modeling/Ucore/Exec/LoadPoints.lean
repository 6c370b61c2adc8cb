import Ucore.Exec.LoadSteps

set_option autoImplicit false

namespace Ucore.Exec

open Ucore.Lib Ucore.Vmm

theorem check_fault {α : Type} (condition : Bool) (next : Unit → Except Fault α) (fault : Fault)
    (ran : (check condition .assertFailed >>= next) = .error fault) : fault = .assertFailed ∨ next () = .error fault := by
  cases condition with
  | false => exact .inl (Except.error.inj ran).symm
  | true => exact .inr ran

theorem check_neighbours_fault (prev next : Option Vma) (fault : Fault) (ran : checkNeighbours prev next = .error fault) :
    fault = .assertFailed := by
  cases prev with
  | none => cases next <;> cases ran
  | some left =>
      cases next with
      | none => cases ran
      | some right =>
          rcases check_fault _ _ fault ran with same | ran
          · exact same
          · rcases check_fault _ _ fault ran with same | ran
            · exact same
            · unfold check at ran
              split at ran
              · cases ran
              · exact (Except.error.inj ran).symm

theorem insert_vma_fault (mm : Mm) (vma : Vma) (fault : Fault) (ran : insertVmaStruct mm vma = .error fault) : fault = .assertFailed := by
  unfold insertVmaStruct at ran
  rcases check_fault _ _ fault ran with same | ran
  · exact same
  · simp only [] at ran
    generalize (mm.mmapList.takeWhile fun prev => !(vma.vmStart < prev.vmStart : Bool)) = before at ran
    generalize (mm.mmapList.dropWhile fun prev => !(vma.vmStart < prev.vmStart : Bool)) = after at ran
    cases first : checkNeighbours before.getLast? (some vma) with
    | error found =>
        rw [first, error_bind, Except.error.injEq] at ran
        exact ran ▸ check_neighbours_fault _ _ found first
    | ok _ =>
        rw [first, ok_bind] at ran
        cases second : checkNeighbours (some vma) after.head? with
        | error found =>
            rw [second, error_bind, Except.error.injEq] at ran
            exact ran ▸ check_neighbours_fault _ _ found second
        | ok _ =>
            rw [second, ok_bind] at ran
            cases ran

-- The areas of a load, and the blocks that hold them.
structure Mapped (mm : Mm) (made : List Block) : Prop where
  areas : Areas mm.mmapList
  cached : mm.Cached
  blocks : made.Perm (mm.mmapList.map Block.vma)

theorem mapped_pgdir (mm : Mm) (made : List Block) (mapped : Mapped mm made) (pgdir : Pgdir) : Mapped { mm with pgdir := pgdir } made :=
  ⟨mapped.areas, mapped.cached, mapped.blocks⟩

theorem insert_vma_blocks (mm mm' : Mm) (vma : Vma) (made : List Block) (mapped : Mapped mm made) (fits : vma.Fits)
    (ran : insertVmaStruct mm vma = .ok mm') : Mapped mm' (made ++ [.vma vma]) := by
  obtain ⟨areas, _, members⟩ := insert_vma_spec mm mm' vma mapped.areas fits ran
  unfold insertVmaStruct at ran
  obtain ⟨_, ran⟩ := check_bind_ok ran
  obtain ⟨_, _, ran⟩ := bind_ok ran
  obtain ⟨_, _, ran⟩ := bind_ok ran
  obtain rfl := Except.ok.inj ran
  refine ⟨areas, fun other held => ?_, ?_⟩
  · exact (members other).mpr (.inr (mapped.cached other held))
  · have whole := List.takeWhile_append_dropWhile (p := fun prev => !(vma.vmStart < prev.vmStart : Bool)) (l := mm.mmapList)
    have listed := mapped.blocks
    rw [← whole, List.map_append] at listed
    rw [List.map_append, List.map_cons]
    refine List.Perm.trans ?_ List.perm_middle.symm
    exact (List.perm_append_singleton _ _).trans (listed.cons _)

-- What mm_map must find where it asks for an area: the range is not one of the user,
-- it begins in an area, there is no memory for the vma_struct, or it meets no area.
def MapPasses (fails : Failures) (mm : Mm) (addr len : Nat) : Prop :=
  ¬ UserAccess (roundDown addr pgSize) (mapStop addr len) ∨ (∃ vma ∈ mm.mmapList, vma.Has (roundDown addr pgSize)) ∨
    fails.vmaStruct mm = true ∨ ∀ vma ∈ mm.mmapList, ¬ vma.Meets (roundDown addr pgSize) (mapStop addr len)

section Map

variable (fails : Failures) (mm : Mm) (addr len vmFlags : Nat) (made : List Block) (mapped : Mapped mm made)

include mapped

theorem mm_map_or_passes (passes : MapPasses fails mm addr len) :
    ∃ ret mm' new, mmMapOr fails mm addr len vmFlags = .ok (ret, mm', new) ∧ ret ≤ 0 ∧ mm'.pgdir = mm.pgdir ∧ Mapped mm' (made ++ new) := by
  have ordered := areas_ordered mm.mmapList mapped.areas
  have unchanged : Mapped mm (made ++ []) := by rwa [List.append_nil]
  rw [mm_map_or_eq]
  by_cases user : UserAccess (roundDown addr pgSize) (mapStop addr len)
  · rw [if_neg (not_not.mpr user)]
    by_cases begins : ∃ vma ∈ mm.mmapList, vma.Has (roundDown addr pgSize)
    · obtain ⟨vma, member, inside⟩ := begins
      have found := (find_vma_some mm (roundDown addr pgSize) ordered mapped.cached vma).mpr ⟨member, inside⟩
      have below : vma.vmStart < mapStop addr len := Nat.lt_of_le_of_lt inside.1 user.2.1
      have cached := find_vma_cached mm (roundDown addr pgSize) ordered mapped.cached
      rw [if_pos (by simpa [found] using below)]
      refine ⟨eInval, _, [], rfl, by decide, ?_, ?_⟩
      · rw [find_vma_snd, found]
        rfl
      · have frame := (find_vma_frame mm (roundDown addr pgSize)).1
        exact ⟨by rw [frame]; exact mapped.areas, cached, by rw [List.append_nil, frame]; exact mapped.blocks⟩
    · have gap : ∀ vma ∈ mm.mmapList, ¬ vma.Has (roundDown addr pgSize) := fun vma member inside => begins ⟨vma, member, inside⟩
      have missed := (find_vma_none mm (roundDown addr pgSize) ordered mapped.cached).mpr gap
      have same : (findVma mm (roundDown addr pgSize)).2 = mm := by
        rw [find_vma_snd, missed]
        rfl
      rw [missed, same, if_neg (by simp)]
      by_cases fail : fails.vmaStruct mm = true
      · rw [if_pos fail]
        exact ⟨eNoMem, mm, [], rfl, by decide, rfl, unchanged⟩
      · rw [if_neg fail]
        have free : ∀ vma ∈ mm.mmapList, ¬ vma.Meets (roundDown addr pgSize) (mapStop addr len) := by
          rcases passes with not | inside | bad | free
          · exact absurd user not
          · exact absurd inside begins
          · exact absurd bad fail
          · exact free
        obtain ⟨before, after, _, _, ran⟩ := insert_vma_ok mm ⟨roundDown addr pgSize, mapStop addr len, vmFlags⟩ ordered user.2.1
          fun other member => by
            have away := free other member
            simp only [Vma.Meets] at away
            simp only [Vma.Apart]
            omega
        have fits : Vma.Fits ⟨roundDown addr pgSize, mapStop addr len, vmFlags⟩ := by
          refine ⟨?_, ?_, user⟩
          · simp [roundDown]
          · simp [mapStop, roundUp, roundDown]
        have after' := insert_vma_blocks mm _ _ made mapped fits ran
        rw [ran]
        exact ⟨0, _, _, rfl, Int.le_refl 0, rfl, after'⟩
  · rw [if_pos user]
    exact ⟨eInval, mm, [], rfl, by decide, rfl, unchanged⟩

-- Everywhere else the assertion of insert_vma_struct fails.
theorem mm_map_or_asserts (blocked : ¬ MapPasses fails mm addr len) : mmMapOr fails mm addr len vmFlags = .error .assertFailed := by
  have ordered := areas_ordered mm.mmapList mapped.areas
  simp only [MapPasses, not_or, not_not] at blocked
  obtain ⟨user, begins, works, meets⟩ := blocked
  have gap : ∀ vma ∈ mm.mmapList, ¬ vma.Has (roundDown addr pgSize) := fun vma member inside => begins ⟨vma, member, inside⟩
  have missed := (find_vma_none mm (roundDown addr pgSize) ordered mapped.cached).mpr gap
  have same : (findVma mm (roundDown addr pgSize)).2 = mm := by
    rw [find_vma_snd, missed]
    rfl
  rw [mm_map_or_eq, if_neg (not_not.mpr user), missed, same, if_neg (by simp), if_neg works]
  cases ran : insertVmaStruct mm ⟨roundDown addr pgSize, mapStop addr len, vmFlags⟩ with
  | error fault => rw [insert_vma_fault mm _ fault ran, error_bind]
  | ok mm' =>
      have fits : Vma.Fits ⟨roundDown addr pgSize, mapStop addr len, vmFlags⟩ := by
        refine ⟨?_, ?_, user⟩
        · simp [roundDown]
        · simp [mapStop, roundUp, roundDown]
      obtain ⟨areas, _, members⟩ := insert_vma_spec mm mm' _ mapped.areas fits ran
      refine absurd (fun vma member touches => ?_) meets
      -- Two areas of one list are apart.
      have both := areas_ordered mm'.mmapList areas
      have differ : vma ≠ ⟨roundDown addr pgSize, mapStop addr len, vmFlags⟩ := by
        intro equal
        exact gap vma member ⟨by rw [equal], by rw [equal]; exact user.2.1⟩
      have away : mm'.mmapList.Pairwise Vma.Apart := both.apart.imp Or.inl
      have apart := away.forall ((members vma).mpr (.inr member)) ((members _).mpr (.inl rfl)) differ
      simp only [Vma.Apart, Vma.Meets] at apart touches
      omega

end Map

-- Where load_icode stands: the image, the areas, and the blocks behind the mm_struct.
structure Loading (mem : Mem) (mm : Mm) (made : List Block) (foreign : Nat → Prop) : Prop where
  built : Built mem mm.pgdir foreign
  mapped : Mapped mm made

-- Where the code goes on without a check: mm_map is asked for an area, the file is
-- sought in, and the first page of a BSS loop is cleared.
inductive Point where
  | ask (mm : Mm) (addr len : Nat)
  | seek (offset : Nat)
  | clear (pgdir : Pgdir) (page start la size : Nat)

def Point.Passes (fails : Failures) (file : ElfFile) : Point → Prop
  | .ask mm addr len => MapPasses fails mm addr len
  | .seek offset => SeekSafe fails file offset
  | .clear pgdir page start la size => struck pgdir page start la size = false

-- The points of one segment, each with what stands there when it is reached.
inductive SegmentPoint (fails : Failures) (file : ElfFile) (mem : Mem) (mm : Mm) (ph : Proghdr) : Point → Prop where
  | ask : SegmentPoint fails file mem mm ph (.ask mm ph.pVa ph.pMemsz)
  | seek (mm1 : Mm) (mem1 : Mem) (pgdir1 : Pgdir) (new : List Block) (page : Nat)
      (mapped : mmMapOr fails mm ph.pVa ph.pMemsz ph.vmFlags = .ok (0, mm1, new)) (before : ph.pVa < (ph.pVa + ph.pFilesz) % 2 ^ 64)
      (allocated : pgdirAllocPage mem mm1.pgdir (roundDown ph.pVa pgSize) (pagePerm ph.vmFlags) = .ok (some page, mem1, pgdir1)) :
      SegmentPoint fails file mem mm ph (.seek ph.pOffset)
  | clear (mm1 : Mm) (mem1 mem2 : Mem) (pgdir1 pgdir2 : Pgdir) (new : List Block) (page start la : Nat)
      (mapped : mmMapOr fails mm ph.pVa ph.pMemsz ph.vmFlags = .ok (0, mm1, new))
      (text : loadText fails file mem mm1.pgdir (pagePerm ph.vmFlags) ((ph.pVa + ph.pFilesz) % 2 ^ 64) ph.pVa (roundDown ph.pVa pgSize) ph.pOffset
        (loopFuel ph.pVa ((ph.pVa + ph.pFilesz) % 2 ^ 64)) = .ok (0, mem1, pgdir1, start, la))
      (before : start < (ph.pVa + ph.pMemsz) % 2 ^ 64)
      (allocated : pgdirAllocPage mem1 pgdir1 la (pagePerm ph.vmFlags) = .ok (some page, mem2, pgdir2)) :
      SegmentPoint fails file mem mm ph (.clear pgdir2 page start la (roundSize start ((ph.pVa + ph.pMemsz) % 2 ^ 64) la))

section Segment

variable (foreign : Nat → Prop) (fails : Failures) (file : ElfFile) (mem : Mem) (mm : Mm) (ph : Proghdr) (made : List Block)
  (loading : Loading mem mm made foreign)

theorem load_text_seek_stops (pgdir pgdir1 : Pgdir) (mem1 : Mem) (perm stop start la offset fuel page : Nat) (before : start < stop)
    (allocated : pgdirAllocPage mem pgdir la perm = .ok (some page, mem1, pgdir1)) (stuck : ¬ SeekSafe fails file offset) :
    loadText fails file mem pgdir perm stop start la offset (fuel + 1) = .error .assertFailed := by
  rcases load_icode_read_settled fails file mem1 (roundSize start stop la) offset with ⟨safe, _⟩ | ⟨_, stopped⟩
  · exact absurd safe stuck
  · rw [loadText, if_pos before, allocated, ok_bind]
    simp only [stopped, error_bind]

theorem build_bss_stops (pgdir pgdir1 : Pgdir) (mem1 : Mem) (perm stop start la fuel page : Nat) (before : start < stop)
    (allocated : pgdirAllocPage mem pgdir la perm = .ok (some page, mem1, pgdir1)) 
    (hit : struck pgdir1 page start la (roundSize start stop la) = true) :
    buildBss mem pgdir perm stop start la (fuel + 1) = .error .wildStore := by
  rw [buildBss, if_pos before, allocated, ok_bind]
  simp only [hit, Bool.not_true]
  rfl

include loading

theorem load_segment_stops (sizes : ph.pFilesz ≤ ph.pMemsz) (point : Point) (reached : SegmentPoint fails file mem mm ph point)
    (blocked : ¬ point.Passes fails file) : ∃ fault, loadSegment fails file mem mm ph = .error fault := by
  rw [loadSegment, if_neg (by omega)]
  cases reached with
  | ask => exact ⟨_, by rw [mm_map_or_asserts fails mm _ _ _ made loading.mapped blocked]; rfl⟩
  | seek mm1 mem1 pgdir1 new page mapped before allocated =>
      refine ⟨.assertFailed, ?_⟩
      have text := load_text_seek_stops fails file mem mm1.pgdir pgdir1 mem1 (pagePerm ph.vmFlags) _ ph.pVa (roundDown ph.pVa pgSize) ph.pOffset
        ((((ph.pVa + ph.pFilesz) % 2 ^ 64) - ph.pVa) / pgSize + 2) page before allocated blocked
      simp only [mapped, ok_bind, ne_eq, not_true_eq_false, if_false, loopFuel, text, error_bind]
  | clear mm1 mem1 mem2 pgdir1 pgdir2 new page start la mapped text before allocated =>
      refine ⟨.wildStore, ?_⟩
      have bss := build_bss_stops mem1 pgdir1 pgdir2 mem2 (pagePerm ph.vmFlags) _ start la ((((ph.pVa + ph.pMemsz) % 2 ^ 64) - start) / pgSize + 2) page
        before allocated (by simpa [Point.Passes] using blocked)
      simp only [loopFuel] at text
      simp only [mapped, ok_bind, ne_eq, not_true_eq_false, if_false, loopFuel, text, bss, error_bind]

theorem load_segment_loading
    (passes : ph.pFilesz ≤ ph.pMemsz → ∀ point, SegmentPoint fails file mem mm ph point → point.Passes fails file) :
    ∃ ret mem' mm' new, loadSegment fails file mem mm ph = .ok (ret, mem', mm', new) ∧ ret ≤ 0 ∧ Loading mem' mm' (made ++ new) foreign := by
  rw [loadSegment]
  by_cases big : ph.pFilesz > ph.pMemsz
  · rw [if_pos big]
    exact ⟨eInvalElf, mem, mm, [], rfl, by decide, by rwa [List.append_nil]⟩
  · have open' := passes (by omega)
    obtain ⟨ret, mm1, new, ran, low, same, mapped⟩ := mm_map_or_passes fails mm ph.pVa ph.pMemsz ph.vmFlags made loading.mapped (open' _ .ask)
    rw [if_neg big, ran, ok_bind]
    by_cases bad : ret ≠ 0
    · simp only [if_pos bad]
      exact ⟨ret, mem, mm1, new, rfl, low, by rw [same]; exact loading.built, mapped⟩
    · simp only [if_neg bad]
      obtain rfl := not_not.mp bad
      obtain ⟨start, high⟩ := map_stop_le _ _ (mm_map_user mm mm1 _ _ _ (mm_map_or_ok fails mm mm1 _ _ _ new ran).1)
      have within : ph.pVa < ph.pVa / pgSize * pgSize + pgSize := by
        have rest := Nat.mod_lt ph.pVa (show 0 < pgSize from by decide)
        have page := Nat.div_add_mod' ph.pVa pgSize
        omega
      have fuelText : textCount ph.pVa ((ph.pVa + ph.pFilesz) % 2 ^ 64) (ph.pVa / pgSize) < loopFuel ph.pVa ((ph.pVa + ph.pFilesz) % 2 ^ 64) := by
        simp only [textCount, loopFuel, pgSize]
        split <;> omega
      have built1 : Built mem mm1.pgdir foreign := by rw [same]; exact loading.built
      obtain ⟨retT, mem1, pgdir1, stop1, la1, text, lowT, builtT⟩ := load_text_built foreign (pagePerm ph.vmFlags) _ fails file _ mem mm1.pgdir ph.pVa
        (ph.pVa / pgSize) ph.pOffset built1 (fun _ => ⟨Nat.div_mul_le_self _ _, within⟩) (by omega) (by omega) fuelText
        fun page memA pgdirA before allocated => open' _ (.seek mm1 memA pgdirA new page ran before allocated)
      rw [roundDown, text, ok_bind]
      by_cases badT : retT ≠ 0
      · simp only [if_pos badT]
        exact ⟨retT, mem1, _, new, rfl, lowT, builtT, mapped_pgdir mm1 _ mapped _⟩
      · simp only [if_neg badT]
        obtain rfl := not_not.mp badT
        obtain ⟨_, started, reached, _⟩ := load_text_pages foreign _ (pagePerm ph.vmFlags) _ fails file mem mem1 mm1.pgdir pgdir1 ph.pVa
          (ph.pVa / pgSize) ph.pOffset _ stop1 la1 built1.image (fun _ => ⟨Nat.div_mul_le_self _ _, within⟩) (by omega) text
        have begins : stop1 = textStop ph := started
        have stands : la1 = (ph.pVa / pgSize + textPages ph) * pgSize := reached
        have near := text_stop_near ph
        have fuelBss : bssCount (textStop ph) ((ph.pVa + ph.pMemsz) % 2 ^ 64) (ph.pVa / pgSize + textPages ph) <
            loopFuel (textStop ph) ((ph.pVa + ph.pMemsz) % 2 ^ 64) := by
          generalize textStop ph = from' at near ⊢
          generalize ph.pVa / pgSize + textPages ph = vpn at near ⊢
          simp only [bssCount, loopFuel, pgSize] at near ⊢
          split <;> omega
        obtain ⟨retB, mem2, pgdir2, bss, lowB, builtB⟩ := build_bss_built foreign (pagePerm ph.vmFlags) _ _ mem1 pgdir1 (textStop ph) _ builtT
          (fun _ => near) (fun _ => high) fuelBss fun page memA pgdirA before allocated => by
            rw [← begins] at before ⊢
            rw [← stands] at allocated ⊢
            exact open' _ (.clear mm1 mem1 memA pgdir1 pgdirA new page stop1 la1 ran text before allocated)
        rw [begins, stands, bss, ok_bind]
        exact ⟨retB, mem2, _, new, rfl, lowB, builtB, mapped_pgdir mm1 _ mapped _⟩

end Segment

theorem setup_stack_asserts (fails : Failures) (mem : Mem) (mm : Mm) (made : List Block) (mapped : Mapped mm made)
    (blocked : ¬ MapPasses fails mm (ustackTop - ustackSize) ustackSize) : setupStack fails mem mm = .error .assertFailed := by
  rw [setupStack, mm_map_or_asserts fails mm _ _ _ made mapped blocked]
  rfl

theorem setup_stack_loading (foreign : Nat → Prop) (fails : Failures) (mem : Mem) (mm : Mm) (made : List Block)
    (loading : Loading mem mm made foreign) (passes : MapPasses fails mm (ustackTop - ustackSize) ustackSize) :
    ∃ ret mem' mm' new, setupStack fails mem mm = .ok (ret, mem', mm', new) ∧ ret ≤ 0 ∧ Loading mem' mm' (made ++ new) foreign := by
  obtain ⟨ret, mm1, new, ran, low, same, mapped⟩ := mm_map_or_passes fails mm (ustackTop - ustackSize) ustackSize
    (vmRead ||| vmWrite ||| vmStack) made loading.mapped passes
  have built1 : Built mem mm1.pgdir foreign := by rw [same]; exact loading.built
  rw [setupStack, ran, ok_bind]
  by_cases bad : ret ≠ 0
  · simp only [if_pos bad]
    exact ⟨ret, mem, mm1, new, rfl, low, built1, mapped⟩
  · simp only [if_neg bad]
    obtain ⟨retP, mem1, pgdir1, pages, lowP, builtP⟩ := stack_pages_built foreign [1, 2, 3, 4] mem mm1.pgdir built1
    rw [pages, ok_bind]
    exact ⟨retP, mem1, _, new, rfl, lowP, builtP, mapped_pgdir mm1 _ mapped _⟩

end Ucore.Exec
