import Ucore.Exec.SegmentPages

set_option autoImplicit false

namespace Ucore.Exec

open Ucore.Lib Ucore.Vmm

-- The program headers that load_icode goes over, and among them the segments.
def programHeaders (file : ElfFile) (phoff : Nat) : Nat → List Proghdr
  | 0 => []
  | left + 1 => proghdrAt (file.bytes.from phoff) :: programHeaders file (phoff + sizeofProghdr) left

def segments (file : ElfFile) : List Proghdr :=
  (programHeaders file (elfhdrAt file.bytes).ePhoff (elfhdrAt file.bytes).ePhnum).filter fun ph => ph.pType = elfPtLoad

-- One segment after the other.
inductive LoadsAll (fails : Failures) (file : ElfFile) : List Proghdr → Mem → Mm → Mem → Mm → Prop where
  | none (mem : Mem) (mm : Mm) : LoadsAll fails file [] mem mm mem mm
  | next (ph : Proghdr) (rest : List Proghdr) (mem mem1 mem' : Mem) (mm mm1 mm' : Mm)
      (made : List Block) (first : loadSegment fails file mem mm ph = .ok (0, mem1, mm1, made)) (others : LoadsAll fails file rest mem1 mm1 mem' mm') :
      LoadsAll fails file (ph :: rest) mem mm mem' mm'

theorem load_segments_all (fails : Failures) (file : ElfFile) (left phoff : Nat) (mem mem' : Mem) (mm mm' : Mm)
    (made : List Block)
    (ran : loadSegments fails file mem mm phoff left = .ok (0, mem', mm', made)) :
    LoadsAll fails file ((programHeaders file phoff left).filter fun ph => ph.pType = elfPtLoad) mem mm mem' mm' := by
  induction left generalizing phoff mem mm made with
  | zero =>
      simp only [loadSegments, Except.ok.injEq, Prod.mk.injEq, true_and] at ran
      obtain ⟨rfl, rfl, _⟩ := ran
      exact .none mem mm
  | succ left ih =>
      rw [loadSegments] at ran
      obtain ⟨⟨code, buf⟩, got, ran⟩ := bind_ok ran
      by_cases short : code ≠ 0
      · simp only [if_pos short, pure_ok, Except.ok.injEq, Prod.mk.injEq] at ran
        exact absurd ran.1 short
      · obtain rfl := not_not.mp short
        obtain ⟨_, _, shape⟩ := load_icode_read_ok fails file _ _ _ buf got
        subst shape
        simp only [ne_eq, not_true_eq_false, if_false] at ran
        by_cases other : (proghdrAt (file.bytes.from phoff)).pType ≠ elfPtLoad
        · rw [if_pos other] at ran
          rw [programHeaders, List.filter_cons_of_neg (by simpa using other)]
          exact ih _ mem mm made ran
        · rw [if_neg other] at ran
          obtain ⟨⟨ret, mem1, mm1, blocks⟩, loaded, ran⟩ := bind_ok ran
          by_cases bad : ret ≠ 0
          · simp only [if_pos bad, pure_ok, Except.ok.injEq, Prod.mk.injEq] at ran
            exact absurd ran.1 bad
          · simp only [if_neg bad] at ran
            obtain rfl := not_not.mp bad
            rw [programHeaders, List.filter_cons_of_pos (by simpa using other)]
            obtain ⟨⟨ret', mem2, mm2, others⟩, rest, ran⟩ := bind_ok ran
            simp only [pure_ok, Except.ok.injEq, Prod.mk.injEq] at ran
            obtain ⟨rfl, rfl, rfl, _⟩ := ran
            exact .next _ _ mem mem1 mem2 mm mm1 mm2 blocks loaded (ih _ mem1 mm1 others rest)

theorem loads_image (foreign : Nat → Prop) (outside : Nat → Nat) (fails : Failures) (file : ElfFile) (list : List Proghdr) (mem mem' : Mem) (mm mm' : Mm)
    (loads : LoadsAll fails file list mem mm mem' mm') (image : Image mem mm.pgdir foreign outside) : Image mem' mm'.pgdir foreign outside := by
  induction loads with
  | none _ _ => exact image
  | next ph _ mem mem1 _ mm mm1 _ made first _ ih =>
      exact ih (load_segment_pages foreign outside fails file mem mem1 mm mm1 ph made image first).1

-- The four pages of the stack.
theorem stack_pages_image (foreign : Nat → Prop) (outside : Nat → Nat) (places : List Nat) (mem mem' : Mem) (pgdir pgdir' : Pgdir)
    (image : Image mem pgdir foreign outside) (ran : stackPages mem pgdir places = .ok (0, mem', pgdir')) :
    Image mem' pgdir' foreign outside ∧ ∀ vpn, vpn < nPages →
      if ∃ i ∈ places, vpn = (ustackTop - i * pgSize) / pgSize then ∃ page, pgdir'.entry vpn = some (pteCreate page (pteV ||| stackPerm))
      else pgdir'.entry vpn = pgdir.entry vpn := by
  induction places generalizing mem pgdir with
  | nil =>
      simp only [stackPages, Except.ok.injEq, Prod.mk.injEq, true_and] at ran
      obtain ⟨rfl, rfl⟩ := ran
      exact ⟨image, fun vpn _ => by rw [if_neg (by simp)]⟩
  | cons i rest ih =>
      rw [stackPages] at ran
      obtain ⟨⟨found, memA, pgdirA⟩, allocated, ran⟩ := bind_ok ran
      cases found with
      | none => simp [eNoMem] at ran
      | some page =>
          simp only [Option.isNone_some, Bool.false_eq_true, if_false] at ran
          have small : (ustackTop - i * pgSize) / pgSize < nPages := by
            simp only [ustackTop, userTop, pgSize, nPages]
            omega
          obtain ⟨imageA, given⟩ := given_image mem memA pgdir pgdirA foreign outside _ stackPerm page image small allocated
          obtain ⟨image', entries⟩ := ih memA pgdirA imageA ran
          refine ⟨image', fun vpn bound => ?_⟩
          have now := entries vpn bound
          by_cases later : ∃ j ∈ rest, vpn = (ustackTop - j * pgSize) / pgSize
          · rw [if_pos later] at now
            obtain ⟨j, member, same⟩ := later
            rw [if_pos ⟨j, List.mem_cons_of_mem i member, same⟩]
            exact now
          · rw [if_neg later] at now
            by_cases here : vpn = (ustackTop - i * pgSize) / pgSize
            · rw [if_pos ⟨i, by simp, here⟩]
              exact ⟨page, by rw [now, given.entry vpn bound, if_pos here]⟩
            · have neither : ¬ ∃ j ∈ i :: rest, vpn = (ustackTop - j * pgSize) / pgSize := by
                intro found
                obtain ⟨j, member, same⟩ := found
                rcases List.mem_cons.mp member with rfl | inRest
                · exact here same
                · exact later ⟨j, inRest, same⟩
              rw [if_neg neither, now, given.entry vpn bound, if_neg here]

theorem setup_stack_parts (fails : Failures) (mem mem' : Mem) (mm mm' : Mm) (made : List Block)
    (ran : setupStack fails mem mm = .ok (0, mem', mm', made)) :
    ∃ mm1 pgdir', mmMap mm (ustackTop - ustackSize) ustackSize (vmRead ||| vmWrite ||| vmStack) = .ok (0, mm1) ∧
      stackPages mem mm1.pgdir [1, 2, 3, 4] = .ok (0, mem', pgdir') ∧ mm' = { mm1 with pgdir := pgdir' } := by
  rw [setupStack] at ran
  obtain ⟨⟨ret, mm1, blocks⟩, mapped, ran⟩ := bind_ok ran
  by_cases bad : ret ≠ 0
  · simp only [if_pos bad, pure_ok, Except.ok.injEq, Prod.mk.injEq] at ran
    exact absurd ran.1 bad
  · simp only [if_neg bad] at ran
    obtain ⟨⟨ret', mem1, pgdir'⟩, pages, ran⟩ := bind_ok ran
    simp only [pure_ok, Except.ok.injEq, Prod.mk.injEq] at ran
    obtain ⟨rfl, rfl, rfl, _⟩ := ran
    obtain rfl := not_not.mp bad
    exact ⟨mm1, pgdir', (mm_map_or_ok fails mm mm1 _ _ _ blocks mapped).1, pages, rfl⟩

-- Every load up to the arguments: the program is read, its segments and the stack
-- are there.
structure Builds (fails : Failures) (mem : Mem) (file : ElfFile) (mem' : Mem) (mm' : Mm) : Prop where
  kmallocs : fails.mmStruct = false ∧ fails.uargv = false
  magic : (elfhdrAt file.bytes).eMagic = elfMagic
  steps : ∃ mm0 mem0 mem1 mm1 made stack, mmCreate mem = some (mm0, mem0) ∧
    loadIcodeRead fails file mem0 sizeofElfhdr 0 = .ok (0, file.bytes) ∧
    loadSegments fails file mem0 mm0 (elfhdrAt file.bytes).ePhoff (elfhdrAt file.bytes).ePhnum = .ok (0, mem1, mm1, made) ∧
    setupStack fails mem1 mm1 = .ok (0, mem', mm', stack)

-- A new root: what is in use elsewhere is foreign, and no free page has a count.
theorem fresh_image (mem mem' : Mem) (mm : Mm) (clean : ∀ page, mem.free page = true → mem.ref page = 0) (made : mmCreate mem = some (mm, mem')) :
    Image mem' mm.pgdir (fun page => mem'.free page = false ∧ page ≠ mm.pgdir.page) (fun _ => 0) := by
  obtain ⟨⟨root, memA⟩, got, same⟩ := Option.map_eq_some_iff.mp made
  simp only [Prod.mk.injEq] at same
  obtain ⟨rfl, rfl⟩ := same
  obtain ⟨free, rfl⟩ := alloc_page_spec mem memA root got
  have empty : ∀ vpn, (⟨root, fun _ => none⟩ : Pgdir).entry vpn = none := fun vpn => rfl
  have tables : ∀ a page, (⟨root, fun _ => none⟩ : Pgdir).pageAt a = some page → a = .root ∧ page = root := by
    intro a page here
    cases a with
    | root => exact ⟨rfl, (Option.some.inj here).symm⟩
    | dir d1 => simp [Pgdir.pageAt] at here
    | table d1 d0 => simp [Pgdir.pageAt] at here
  have noCount : ∀ page, (⟨root, fun _ => none⟩ : Pgdir).count page = 0 := by
    intro page
    by_contra some'
    obtain ⟨vpn, _, maps⟩ := (count_pos _ page).mp (Nat.pos_of_ne_zero some')
    simp [Pgdir.Maps, empty] at maps
  refine ⟨⟨fun a b page first second => ?_, fun a page here => ?_, fun page positive => ?_, fun page noTable noForeign => ?_, fun page claimed => claimed.1,
    fun page positive => ?_⟩, fun vpn other pte pte' _ _ here => ?_⟩
  · rw [(tables a page first).1, (tables b page second).1]
  · obtain ⟨_, rfl⟩ := tables a page here
    exact ⟨by simp, fun claimed => claimed.2 rfl, rfl, noCount page⟩
  · rw [noCount page] at positive
    exact absurd positive (by simp)
  · have apart : page ≠ root := fun equal => noTable .root (by rw [equal]; rfl)
    have unused : mem.free page = true := by
      by_contra used
      exact noForeign ⟨by simpa [apart] using used, apart⟩
    rw [noCount]
    exact clean page unused
  · exact absurd positive (by simp)
  · rw [empty] at here
    exact absurd here (by simp)

theorem builds_parts (fails : Failures) (mem mem' : Mem) (file : ElfFile) (mm' : Mm) (clean : ∀ page, mem.free page = true → mem.ref page = 0)
    (builds : Builds fails mem file mem' mm') : ∃ foreign outside mem0 mm0 mem1 mm1 stack, mmCreate mem = some (mm0, mem0) ∧
      Image mem0 mm0.pgdir foreign outside ∧ LoadsAll fails file (segments file) mem0 mm0 mem1 mm1 ∧ Image mem1 mm1.pgdir foreign outside ∧
      setupStack fails mem1 mm1 = .ok (0, mem', mm', stack) ∧ Image mem' mm'.pgdir foreign outside := by
  obtain ⟨mm0, mem0, mem1, mm1, made, stack, created, _, loaded, set⟩ := builds.steps
  have image0 := fresh_image mem mem0 mm0 clean created
  have all := load_segments_all fails file _ _ mem0 mem1 mm0 mm1 made loaded
  have image1 := loads_image _ _ fails file _ mem0 mem1 mm0 mm1 all image0
  obtain ⟨mmS, pgdir', mapped, pages, rfl⟩ := setup_stack_parts fails mem1 mem' mm1 mm' stack set
  rw [(mm_map_shape mm1 mmS _ _ _ mapped).1] at pages
  exact ⟨_, _, mem0, mm0, mem1, mm1, stack, created, image0, all, image1, set,
    (stack_pages_image _ _ _ mem1 mem' mm1.pgdir pgdir' image1 pages).1⟩

end Ucore.Exec
