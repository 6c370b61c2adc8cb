import Ucore.Exec.ArgBlock
import Ucore.Exec.LoadPoints

set_option autoImplicit false

namespace Ucore.Exec

open Ucore.Lib Ucore.Vmm

-- The part of load_icode between mm_create and the new page table, without the
-- clean-up: the segments that are left, and the stack.
def loadAreas (fails : Failures) (file : ElfFile) (mem : Mem) (mm : Mm) (phoff left : Nat) : Except Fault (Int × Mem × Mm × List Block) := do
  let (ret, mem, mm, made) ← loadSegments fails file mem mm phoff left
  if ret ≠ 0 then return (ret, mem, mm, made)
  else
    let (ret, mem, mm, stack) ← setupStack fails mem mm
    return (ret, mem, mm, made ++ stack)

def loadProgram (fails : Failures) (file : ElfFile) (mem : Mem) (mm : Mm) : Except Fault (Int × Mem × Mm × List Block) := do
  let (ret, buf) ← loadIcodeRead fails file mem sizeofElfhdr 0
  if ret ≠ 0 then return (ret, mem, mm, [])
  else if (elfhdrAt buf).eMagic ≠ elfMagic then return (eInvalElf, mem, mm, [])
  else loadAreas fails file mem mm (elfhdrAt buf).ePhoff (elfhdrAt buf).ePhnum

theorem load_areas_short (fails : Failures) (file : ElfFile) (mem : Mem) (mm : Mm) (phoff left : Nat) (ret : Int) (buf : Bytes)
    (read : loadIcodeRead fails file mem sizeofProghdr phoff = .ok (ret, buf)) (bad : ret ≠ 0) :
    loadAreas fails file mem mm phoff (left + 1) = .ok (ret, mem, mm, []) := by
  rw [loadAreas, loadSegments, read]
  simp only [ok_bind, if_pos bad, pure_ok]

theorem load_areas_skip (fails : Failures) (file : ElfFile) (mem : Mem) (mm : Mm) (phoff left : Nat) (buf : Bytes)
    (read : loadIcodeRead fails file mem sizeofProghdr phoff = .ok (0, buf)) (other : (proghdrAt buf).pType ≠ elfPtLoad) :
    loadAreas fails file mem mm phoff (left + 1) = loadAreas fails file mem mm (phoff + sizeofProghdr) left := by
  rw [loadAreas, loadSegments, read]
  simp only [ok_bind, ne_eq, not_true_eq_false, if_false, if_pos other]
  rfl

theorem load_areas_next (fails : Failures) (file : ElfFile) (mem : Mem) (mm : Mm) (phoff left : Nat) (buf : Bytes)
    (read : loadIcodeRead fails file mem sizeofProghdr phoff = .ok (0, buf)) (load : (proghdrAt buf).pType = elfPtLoad) :
    loadAreas fails file mem mm phoff (left + 1) = (do
      let (ret, mem, mm, made) ← loadSegment fails file mem mm (proghdrAt buf)
      if ret ≠ 0 then return (ret, mem, mm, made)
      else
        let (ret, mem, mm, others) ← loadAreas fails file mem mm (phoff + sizeofProghdr) left
        return (ret, mem, mm, made ++ others)) := by
  rw [loadAreas, loadSegments, read, ok_bind]
  simp only [ne_eq, load, not_true_eq_false, if_false]
  cases loadSegment fails file mem mm (proghdrAt buf) with
  | error fault => rfl
  | ok result =>
      obtain ⟨ret, mem1, mm1, made⟩ := result
      simp only [ok_bind, pure_ok]
      by_cases bad : ret = 0
      · simp only [bad, not_true_eq_false, if_false, loadAreas]
        cases loadSegments fails file mem1 mm1 (phoff + sizeofProghdr) left with
        | error fault => rfl
        | ok rest =>
            obtain ⟨ret2, mem2, mm2, others⟩ := rest
            simp only [ok_bind, pure_ok]
            by_cases worse : ret2 = 0
            · simp only [worse, ne_eq, not_true_eq_false, if_false]
              cases setupStack fails mem2 mm2 with
              | error fault => rfl
              | ok stack => simp only [ok_bind, List.append_assoc]
            · simp only [ne_eq, worse, not_false_eq_true, if_true, ok_bind]
      · simp only [bad, not_false_eq_true, if_true, ok_bind]

-- The points of a load from a program header on, each with what stands there when it is
-- reached.
inductive Reaches (fails : Failures) (file : ElfFile) : Mem → Mm → Nat → Nat → Point → Prop where
  | header (mem : Mem) (mm : Mm) (phoff left : Nat) : Reaches fails file mem mm phoff (left + 1) (.seek phoff)
  | skip (mem : Mem) (mm : Mm) (phoff left : Nat) (buf : Bytes) (point : Point)
      (read : loadIcodeRead fails file mem sizeofProghdr phoff = .ok (0, buf)) (other : (proghdrAt buf).pType ≠ elfPtLoad)
      (rest : Reaches fails file mem mm (phoff + sizeofProghdr) left point) : Reaches fails file mem mm phoff (left + 1) point
  | segment (mem : Mem) (mm : Mm) (phoff left : Nat) (buf : Bytes) (point : Point)
      (read : loadIcodeRead fails file mem sizeofProghdr phoff = .ok (0, buf)) (load : (proghdrAt buf).pType = elfPtLoad)
      (sizes : (proghdrAt buf).pFilesz ≤ (proghdrAt buf).pMemsz) (inside : SegmentPoint fails file mem mm (proghdrAt buf) point) :
      Reaches fails file mem mm phoff (left + 1) point
  | next (mem mem1 : Mem) (mm mm1 : Mm) (phoff left : Nat) (buf : Bytes) (made : List Block) (point : Point)
      (read : loadIcodeRead fails file mem sizeofProghdr phoff = .ok (0, buf)) (load : (proghdrAt buf).pType = elfPtLoad)
      (first : loadSegment fails file mem mm (proghdrAt buf) = .ok (0, mem1, mm1, made))
      (rest : Reaches fails file mem1 mm1 (phoff + sizeofProghdr) left point) : Reaches fails file mem mm phoff (left + 1) point
  | stack (mem : Mem) (mm : Mm) (phoff : Nat) : Reaches fails file mem mm phoff 0 (.ask mm (ustackTop - ustackSize) ustackSize)

section Areas

variable (foreign : Nat → Prop) (fails : Failures) (file : ElfFile)

theorem load_areas_loading (left : Nat) (mem : Mem) (mm : Mm) (phoff : Nat) (made : List Block) (loading : Loading mem mm made foreign)
    (passes : ∀ point, Reaches fails file mem mm phoff left point → point.Passes fails file) :
    ∃ ret mem' mm' new, loadAreas fails file mem mm phoff left = .ok (ret, mem', mm', new) ∧ ret ≤ 0 ∧ Loading mem' mm' (made ++ new) foreign := by
  induction left generalizing mem mm phoff made with
  | zero =>
      obtain ⟨ret, mem', mm', new, ran, low, after⟩ := setup_stack_loading foreign fails mem mm made loading (passes _ (.stack mem mm phoff))
      refine ⟨ret, mem', mm', new, ?_, low, after⟩
      rw [loadAreas, loadSegments, ok_bind]
      simp only [ne_eq, not_true_eq_false, if_false, ran, ok_bind, pure_ok, List.nil_append]
  | succ left ih =>
      rcases load_icode_read_settled fails file mem sizeofProghdr phoff with ⟨_, code, buf, read⟩ | ⟨stuck, _⟩
      · by_cases bad : code ≠ 0
        · have negative := load_icode_read_error fails file _ _ _ code buf read bad
          exact ⟨code, mem, mm, [], load_areas_short fails file mem mm phoff left code buf read bad, by omega, by rwa [List.append_nil]⟩
        · obtain rfl := not_not.mp bad
          by_cases load : (proghdrAt buf).pType = elfPtLoad
          · obtain ⟨ret, mem1, mm1, new, ran, low, after⟩ := load_segment_loading foreign fails file mem mm (proghdrAt buf) made loading
              fun sizes point inside => passes point (.segment mem mm phoff left buf point read load sizes inside)
            rw [load_areas_next fails file mem mm phoff left buf read load, ran, ok_bind]
            by_cases bad : ret ≠ 0
            · exact ⟨ret, mem1, mm1, new, by simp only [if_pos bad, pure_ok], low, after⟩
            · obtain rfl := not_not.mp bad
              obtain ⟨ret', mem', mm', others, rest, low', after'⟩ := ih mem1 mm1 (phoff + sizeofProghdr) (made ++ new) after
                fun point reached => passes point (.next mem mem1 mm mm1 phoff left buf new point read load ran reached)
              refine ⟨ret', mem', mm', new ++ others, ?_, low', by rwa [← List.append_assoc]⟩
              simp only [if_neg bad, rest, ok_bind, pure_ok]
          · rw [load_areas_skip fails file mem mm phoff left buf read load]
            exact ih mem mm (phoff + sizeofProghdr) made loading fun point reached =>
              passes point (.skip mem mm phoff left buf point read load reached)
      · exact absurd (passes _ (.header mem mm phoff left)) stuck

theorem load_areas_stops (mem : Mem) (mm : Mm) (phoff left : Nat) (point : Point) (made : List Block) (loading : Loading mem mm made foreign)
    (reached : Reaches fails file mem mm phoff left point) (blocked : ¬ point.Passes fails file) :
    ∃ fault, loadAreas fails file mem mm phoff left = .error fault := by
  induction reached generalizing made with
  | header mem mm phoff left =>
      rcases load_icode_read_settled fails file mem sizeofProghdr phoff with ⟨safe, _⟩ | ⟨_, stopped⟩
      · exact absurd safe blocked
      · exact ⟨.assertFailed, by rw [loadAreas, loadSegments, stopped]; rfl⟩
  | skip mem mm phoff left buf point read other rest ih =>
      rw [load_areas_skip fails file mem mm phoff left buf read other]
      exact ih made loading blocked
  | segment mem mm phoff left buf point read load sizes inside =>
      obtain ⟨fault, stopped⟩ := load_segment_stops foreign fails file mem mm (proghdrAt buf) made loading sizes point inside blocked
      exact ⟨fault, by rw [load_areas_next fails file mem mm phoff left buf read load, stopped]; rfl⟩
  | next mem mem1 mm mm1 phoff left buf new point read load first rest ih =>
      -- A segment that was loaded had no point that stops it.
      have passed : (proghdrAt buf).pFilesz ≤ (proghdrAt buf).pMemsz → ∀ point, SegmentPoint fails file mem mm (proghdrAt buf) point →
          point.Passes fails file := by
        intro sizes point inside
        by_contra stuck
        obtain ⟨fault, stopped⟩ := load_segment_stops foreign fails file mem mm (proghdrAt buf) made loading sizes point inside stuck
        rw [stopped] at first
        cases first
      obtain ⟨ret, memL, mmL, newL, ran, _, after⟩ := load_segment_loading foreign fails file mem mm (proghdrAt buf) made loading passed
      rw [ran] at first
      simp only [Except.ok.injEq, Prod.mk.injEq] at first
      obtain ⟨rfl, rfl, rfl, rfl⟩ := first
      obtain ⟨fault, stopped⟩ := ih (made ++ newL) after blocked
      refine ⟨fault, ?_⟩
      rw [load_areas_next fails file mem mm phoff left buf read load, ran, ok_bind]
      simp only [ne_eq, not_true_eq_false, if_false, stopped, error_bind]
  | stack mem mm phoff =>
      refine ⟨.assertFailed, ?_⟩
      rw [loadAreas, loadSegments, ok_bind]
      simp only [ne_eq, not_true_eq_false, if_false, setup_stack_asserts fails mem mm made loading.mapped blocked, error_bind]

end Areas

theorem header_bytes (fails : Failures) (file : ElfFile) (mem : Mem) (buf : Bytes)
    (read : loadIcodeRead fails file mem sizeofElfhdr 0 = .ok (0, buf)) : buf = file.bytes := by
  obtain ⟨_, _, shape⟩ := load_icode_read_ok fails file _ _ _ buf read
  rw [shape]
  funext i
  rw [Bytes.from, Nat.zero_add]

-- The first read of a load is at the start of the file.
theorem header_read (fails : Failures) (file : ElfFile) (mem : Mem) :
    ∃ ret buf, loadIcodeRead fails file mem sizeofElfhdr 0 = .ok (ret, buf) := by
  rcases load_icode_read_settled fails file mem sizeofElfhdr 0 with ⟨_, got⟩ | ⟨stuck, _⟩
  · exact got
  · exact absurd (seek_in_file fails file 0 (Nat.zero_le _)).2 stuck

theorem load_icode_program (fails : Failures) (mem mem0 : Mem) (mm0 : Mm) (satp : Nat) (file : ElfFile) (kargv : List (List UInt8))
    (works : fails.mmStruct = false) (created : mmCreate mem = some (mm0, mem0)) : loadIcode fails mem satp file kargv = (do
      let (ret, mem, mm, made) ← loadProgram fails file mem0 mm0
      if ret ≠ 0 then badCleanupMmap ret mem mm 0 satp (.mm :: made)
      else if fails.uargv then badCleanupMmap eNoMem mem mm 1 mm.pgdir.page (.mm :: made)
      else
        let (mem, sp) ← setupArgs mem mm.pgdir kargv
        return ⟨0, mem, some ⟨mm, ⟨sp, kargv.length, sp, (elfhdrAt file.bytes).eEntry⟩⟩, mm.pgdir.page, .mm :: made ++ [.uargv], [.uargv]⟩) := by
  obtain ⟨code, buf, read⟩ := header_read fails file mem0
  rw [loadIcode, works, created]
  simp only [Bool.false_eq_true, if_false]
  rw [loadProgram, read, ok_bind, ok_bind]
  by_cases short : code ≠ 0
  · simp only [if_pos short, pure_ok, ok_bind]
  · obtain rfl := not_not.mp short
    have whole := header_bytes fails file mem0 buf read
    subst whole
    simp only [ne_eq, not_true_eq_false, if_false]
    by_cases magic : (elfhdrAt file.bytes).eMagic = elfMagic
    · simp only [magic, not_true_eq_false, if_false, loadAreas]
      cases loadSegments fails file mem0 mm0 (elfhdrAt file.bytes).ePhoff (elfhdrAt file.bytes).ePhnum with
      | error fault => rfl
      | ok result =>
          obtain ⟨ret, mem1, mm1, made⟩ := result
          simp only [ok_bind, pure_ok]
          by_cases bad : ret = 0
          · simp only [bad, ne_eq, not_true_eq_false, if_false]
            cases setupStack fails mem1 mm1 with
            | error fault => rfl
            | ok stack => simp only [ok_bind, List.cons_append, List.append_assoc]
          · simp [bad]
    · simp only [magic, not_false_eq_true, if_true, pure_ok, ok_bind, show eInvalElf ≠ 0 from by decide]

-- What a load that gave up leaves behind: an error, the pages as they were, each
-- block given back once, and a caller without memory on the page table it had.
structure CleanedUp (mem : Mem) (satp : Nat) (outcome : Outcome) : Prop where
  ret : outcome.ret < 0
  pages : outcome.mem.free = mem.free
  blocks : outcome.kfreed.Perm outcome.made
  current : outcome.current = none
  satp : outcome.satp = satp

-- Either nothing fails up to the arguments, or load_icode gives up and cleans up.
def CleansUp (fails : Failures) (mem : Mem) (satp : Nat) (file : ElfFile) (kargv : List (List UInt8)) : Prop :=
  (∃ memS mmS, Builds fails mem file memS mmS) ∨ ∃ outcome, loadIcode fails mem satp file kargv = .ok outcome ∧ CleanedUp mem satp outcome

-- The points of a whole load.
def LoadReaches (fails : Failures) (mem : Mem) (file : ElfFile) (point : Point) : Prop :=
  ∃ mm0 mem0, fails.mmStruct = false ∧ mmCreate mem = some (mm0, mem0) ∧ loadIcodeRead fails file mem0 sizeofElfhdr 0 = .ok (0, file.bytes) ∧
    (elfhdrAt file.bytes).eMagic = elfMagic ∧ Reaches fails file mem0 mm0 (elfhdrAt file.bytes).ePhoff (elfhdrAt file.bytes).ePhnum point

-- What must hold at the points of the load, none of which the clean-up looks at.
structure CanCleanUp (fails : Failures) (mem : Mem) (file : ElfFile) : Prop where
  asks : ∀ mm addr len, LoadReaches fails mem file (.ask mm addr len) → MapPasses fails mm addr len
  seeks : ∀ offset, LoadReaches fails mem file (.seek offset) → SeekSafe fails file offset
  gaveUp : ∀ mm0 mem0 ret mem' mm' made, fails.mmStruct = false → mmCreate mem = some (mm0, mem0) →
    loadProgram fails file mem0 mm0 = .ok (ret, mem', mm', made) → ret ≠ 0 → mm'.Covered ∧ mm'.TablesClose
  uargv : ∀ mm0 mem0 mem' mm' made, fails.mmStruct = false → mmCreate mem = some (mm0, mem0) →
    loadProgram fails file mem0 mm0 = .ok (0, mem', mm', made) → fails.uargv = false

-- A memset of the load that leaves its page finds there no frame that was in use before
-- the load, and changes none of the new page tables.
def ClearsInside (fails : Failures) (mem : Mem) (file : ElfFile) : Prop :=
  ∀ pgdir page start la size, LoadReaches fails mem file (.clear pgdir page start la size) → start < la →
    (0 < page ∧ mem.free (page - 1) = true) ∧ struck pgdir page start la size = false

theorem clears_inside_misses (fails : Failures) (mem : Mem) (file : ElfFile) (inside : ClearsInside fails mem file) (pgdir : Pgdir)
    (page start la size : Nat) (reached : LoadReaches fails mem file (.clear pgdir page start la size)) :
    struck pgdir page start la size = false := by
  by_cases below : start < la
  · exact (inside pgdir page start la size reached below).2
  · exact struck_inside pgdir page start la size (by omega)

theorem exit_mmap_list (mem mem' : Mem) (mm mm' : Mm) (ran : exitMmap mem mm = .ok (mem', mm')) : mm'.mmapList = mm.mmapList := by
  rw [exitMmap] at ran
  obtain ⟨_, _, ran⟩ := bind_ok ran
  obtain ⟨_, _, ran⟩ := bind_ok ran
  obtain ⟨_, rfl⟩ := Prod.mk.inj (Except.ok.inj ran)
  rfl

theorem bad_cleanup_iff (foreign : Nat → Prop) (before mem : Mem) (mm : Mm) (made : List Block) (satp : Nat) (ret : Int) (negative : ret < 0)
    (loading : Loading mem mm made foreign) (claimed : ∀ page, foreign page ↔ before.free page = false) :
    (∃ outcome, badCleanupMmap ret mem mm 0 satp (.mm :: made) = .ok outcome ∧ CleanedUp before satp outcome) ↔ mm.Covered ∧ mm.TablesClose := by
  rw [← exits_clean_iff mem mm foreign loading.built.image.space loading.mapped.areas loading.built.referenced]
  constructor
  · intro cleaned
    obtain ⟨outcome, ran, cleaned⟩ := cleaned
    rw [badCleanupMmap] at ran
    obtain ⟨_, ran⟩ := check_bind_ok ran
    obtain ⟨⟨mem', mm'⟩, exited, ran⟩ := bind_ok ran
    obtain ⟨mem'', put, ran⟩ := bind_ok ran
    obtain rfl := Except.ok.inj ran
    refine ⟨mem', mm', mem'', exited, put, fun page => ?_⟩
    rw [claimed]
    exact Eq.congr_left (congrFun cleaned.pages page)
  · intro clean
    obtain ⟨mem', mm', mem'', exited, put, used⟩ := clean
    refine ⟨⟨ret, mem'', none, satp, .mm :: made, mmDestroy mm'⟩, ?_, negative, ?_, ?_, rfl, rfl⟩
    · rw [badCleanupMmap, exited]
      simp only [decide_true, check_true, ok_bind, put, pure_ok]
    · funext page
      have same := (used page).trans (claimed page)
      cases now : mem''.free page with
      | false => exact (same.mp now).symm
      | true =>
          cases old : before.free page with
          | true => rfl
          | false => exact absurd (same.mpr old) (by simp [now])
    · rw [mmDestroy, exit_mmap_list mem mem' mm mm' exited]
      exact (List.perm_append_singleton _ _).trans (loading.mapped.blocks.symm.cons _)

theorem builds_program (fails : Failures) (mem memS : Mem) (mmS : Mm) (file : ElfFile) (builds : Builds fails mem file memS mmS) :
    fails.uargv = false ∧ ∃ mm0 mem0 made, mmCreate mem = some (mm0, mem0) ∧ loadProgram fails file mem0 mm0 = .ok (0, memS, mmS, made) := by
  obtain ⟨⟨_, works⟩, magic, mm0, mem0, mem1, mm1, made, stack, created, read, loaded, set⟩ := builds
  refine ⟨works, mm0, mem0, made ++ stack, created, ?_⟩
  rw [loadProgram, read, ok_bind]
  simp only [magic, ne_eq, not_true_eq_false, if_false, loadAreas, loaded, ok_bind, set, pure_ok]

theorem program_builds (fails : Failures) (mem mem0 memS : Mem) (mm0 mmS : Mm) (file : ElfFile) (made : List Block)
    (works : fails.mmStruct = false) (worksToo : fails.uargv = false) (created : mmCreate mem = some (mm0, mem0))
    (ran : loadProgram fails file mem0 mm0 = .ok (0, memS, mmS, made)) : Builds fails mem file memS mmS := by
  rw [loadProgram] at ran
  obtain ⟨⟨code, buf⟩, read, ran⟩ := bind_ok ran
  by_cases short : code ≠ 0
  · simp only [if_pos short, pure_ok, Except.ok.injEq, Prod.mk.injEq] at ran
    exact absurd ran.1 short
  · obtain rfl := not_not.mp short
    have whole := header_bytes fails file mem0 buf read
    subst whole
    simp only [ne_eq, not_true_eq_false, if_false] at ran
    by_cases magic : (elfhdrAt file.bytes).eMagic ≠ elfMagic
    · simp [magic, eInvalElf] at ran
    · rw [if_neg magic, loadAreas] at ran
      obtain ⟨⟨ret, mem1, mm1, made1⟩, loaded, ran⟩ := bind_ok ran
      by_cases bad : ret ≠ 0
      · simp only [if_pos bad, pure_ok, Except.ok.injEq, Prod.mk.injEq] at ran
        exact absurd ran.1 bad
      · simp only [if_neg bad] at ran
        obtain rfl := not_not.mp bad
        obtain ⟨⟨ret', mem2, mm2, stack⟩, set, ran⟩ := bind_ok ran
        simp only [pure_ok, Except.ok.injEq, Prod.mk.injEq] at ran
        obtain ⟨rfl, rfl, rfl, _⟩ := ran
        exact ⟨⟨works, worksToo⟩, not_not.mp magic, mm0, mem0, mem1, mm1, made1, stack, created, read, loaded, set⟩

section Program

variable (foreign : Nat → Prop) (fails : Failures) (file : ElfFile) (mem : Mem) (mm : Mm) (loading : Loading mem mm [] foreign)

include loading

theorem load_program_loading (passes : loadIcodeRead fails file mem sizeofElfhdr 0 = .ok (0, file.bytes) →
      (elfhdrAt file.bytes).eMagic = elfMagic → ∀ point,
      Reaches fails file mem mm (elfhdrAt file.bytes).ePhoff (elfhdrAt file.bytes).ePhnum point → point.Passes fails file) :
    ∃ ret mem' mm' new, loadProgram fails file mem mm = .ok (ret, mem', mm', new) ∧ ret ≤ 0 ∧ Loading mem' mm' new foreign := by
  obtain ⟨code, buf, read⟩ := header_read fails file mem
  rw [loadProgram, read, ok_bind]
  by_cases short : code ≠ 0
  · have negative := load_icode_read_error fails file _ _ _ code buf read short
    simp only [if_pos short]
    exact ⟨code, mem, mm, [], rfl, by omega, loading⟩
  · obtain rfl := not_not.mp short
    have whole := header_bytes fails file mem buf read
    subst whole
    simp only [ne_eq, not_true_eq_false, if_false]
    by_cases magic : (elfhdrAt file.bytes).eMagic = elfMagic
    · rw [if_neg (not_not.mpr magic)]
      exact load_areas_loading foreign fails file _ mem mm _ [] loading (passes read magic)
    · rw [if_pos magic]
      exact ⟨eInvalElf, mem, mm, [], rfl, by decide, loading⟩

theorem load_program_stops (point : Point) (read : loadIcodeRead fails file mem sizeofElfhdr 0 = .ok (0, file.bytes))
    (magic : (elfhdrAt file.bytes).eMagic = elfMagic)
    (reached : Reaches fails file mem mm (elfhdrAt file.bytes).ePhoff (elfhdrAt file.bytes).ePhnum point)
    (blocked : ¬ point.Passes fails file) : ∃ fault, loadProgram fails file mem mm = .error fault := by
  obtain ⟨fault, stopped⟩ := load_areas_stops foreign fails file mem mm _ _ point [] loading reached blocked
  refine ⟨fault, ?_⟩
  rw [loadProgram, read, ok_bind]
  simp only [magic, ne_eq, not_true_eq_false, if_false, stopped]

end Program

theorem created_loading (mem mem0 : Mem) (mm0 : Mm) (clean : ∀ page, mem.free page = true → mem.ref page = 0)
    (created : mmCreate mem = some (mm0, mem0)) : ∃ foreign, Loading mem0 mm0 [] foreign ∧ ∀ page, foreign page ↔ mem.free page = false := by
  have image := fresh_image mem mem0 mm0 clean created
  refine ⟨_, ⟨⟨image, fun page used noForeign noTable => ?_⟩, ?_⟩, fun page => ?_⟩
  · refine absurd ⟨used, fun same => noTable .root ?_⟩ noForeign
    rw [same]
    rfl
  · obtain ⟨found, _, same⟩ := Option.map_eq_some_iff.mp created
    obtain ⟨rfl, rfl⟩ := Prod.mk.inj same
    exact ⟨⟨List.Pairwise.nil, by simp⟩, by simp [Mm.Cached], List.Perm.refl _⟩
  · obtain ⟨⟨root, memA⟩, got, same⟩ := Option.map_eq_some_iff.mp created
    obtain ⟨rfl, rfl⟩ := Prod.mk.inj same
    obtain ⟨free, rfl⟩ := alloc_page_spec mem memA root got
    by_cases here : page = root
    · simp [here, free]
    · simp [here]

section Created

variable (fails : Failures) (mem mem0 : Mem) (mm0 : Mm) (satp : Nat) (file : ElfFile) (kargv : List (List UInt8))
  (works : fails.mmStruct = false) (created : mmCreate mem = some (mm0, mem0))

include created

theorem built_program (builds : ∃ memS mmS, Builds fails mem file memS mmS) :
    fails.uargv = false ∧ ∃ memS mmS made, loadProgram fails file mem0 mm0 = .ok (0, memS, mmS, made) := by
  obtain ⟨memS, mmS, builds⟩ := builds
  obtain ⟨fine, mm1, mem1, made, again, program⟩ := builds_program fails mem memS mmS file builds
  rw [created] at again
  obtain ⟨rfl, rfl⟩ := Prod.mk.inj (Option.some.inj again)
  exact ⟨fine, memS, mmS, made, program⟩

include works

theorem stopped_not_cleaned (fault : Fault) (stopped : loadProgram fails file mem0 mm0 = .error fault) : ¬ CleansUp fails mem satp file kargv := by
  intro cleans
  rcases cleans with builds | ⟨outcome, ran, _⟩
  · obtain ⟨_, memS, mmS, made, program⟩ := built_program fails mem mem0 mm0 file created builds
    rw [stopped] at program
    cases program
  · rw [load_icode_program fails mem mem0 mm0 satp file kargv works created, stopped, error_bind] at ran
    cases ran

-- The load returns: it is at its end, or it gives up where it stands.
theorem cleans_up_program (foreign : Nat → Prop) (claimed : ∀ page, foreign page ↔ mem.free page = false) (ret : Int) (mem' : Mem) (mm' : Mm)
    (made : List Block) (program : loadProgram fails file mem0 mm0 = .ok (ret, mem', mm', made)) (low : ret ≤ 0)
    (after : Loading mem' mm' made foreign) : CleansUp fails mem satp file kargv ↔
      (ret ≠ 0 → mm'.Covered ∧ mm'.TablesClose) ∧ (ret = 0 → fails.uargv = false) := by
  have whole := load_icode_program fails mem mem0 mm0 satp file kargv works created
  rw [program, ok_bind] at whole
  by_cases bad : ret ≠ 0
  · simp only [if_pos bad] at whole
    have cleaned := bad_cleanup_iff foreign mem mem' mm' made satp ret (by omega) after claimed
    rw [CleansUp, whole, cleaned]
    constructor
    · intro cleans
      refine ⟨fun _ => cleans.resolve_left fun builds => ?_, fun zero => absurd zero bad⟩
      obtain ⟨_, memS, mmS, others, again⟩ := built_program fails mem mem0 mm0 file created builds
      rw [program] at again
      exact bad (Prod.mk.inj (Except.ok.inj again)).1
    · intro can
      exact .inr (can.1 bad)
  · obtain rfl := not_not.mp bad
    constructor
    · intro cleans
      refine ⟨fun wrong => absurd rfl wrong, fun _ => ?_⟩
      rcases cleans with builds | ⟨outcome, ran, _⟩
      · exact (built_program fails mem mem0 mm0 file created builds).1
      · by_contra bad'
        have fail : fails.uargv = true := by simpa using bad'
        simp [whole, fail, badCleanupMmap] at ran
    · intro can
      exact .inl ⟨mem', mm', program_builds fails mem mem0 mem' mm0 mm' file made works (can.2 rfl) created program⟩

end Created

-- The iff as it is where an address space is created.
theorem created_cleans_iff (fails : Failures) (mem mem0 : Mem) (mm0 : Mm) (satp : Nat) (file : ElfFile) (kargv : List (List UInt8))
    (clean : ∀ page, mem.free page = true → mem.ref page = 0) (works : fails.mmStruct = false) (created : mmCreate mem = some (mm0, mem0)) :
    CleansUp fails mem satp file kargv ↔
      (∀ point, LoadReaches fails mem file point → point.Passes fails file) ∧
        ∀ ret mem' mm' made, loadProgram fails file mem0 mm0 = .ok (ret, mem', mm', made) →
          (ret ≠ 0 → mm'.Covered ∧ mm'.TablesClose) ∧ (ret = 0 → fails.uargv = false) := by
  obtain ⟨foreign, loading, claimed⟩ := created_loading mem mem0 mm0 clean created
  have ends : (∀ point, LoadReaches fails mem file point → point.Passes fails file) →
      ∃ ret mem' mm' made, loadProgram fails file mem0 mm0 = .ok (ret, mem', mm', made) ∧ ret ≤ 0 ∧ Loading mem' mm' made foreign := fun passes =>
    load_program_loading foreign fails file mem0 mm0 loading fun read magic point reached =>
      passes point ⟨mm0, mem0, works, created, read, magic, reached⟩
  constructor
  · intro cleans
    have passes : ∀ point, LoadReaches fails mem file point → point.Passes fails file := by
      intro point reached
      obtain ⟨mm1, mem1, _, again, read, magic, reached⟩ := reached
      rw [created] at again
      obtain ⟨rfl, rfl⟩ := Prod.mk.inj (Option.some.inj again)
      by_contra blocked
      obtain ⟨fault, stopped⟩ := load_program_stops foreign fails file mem0 mm0 loading point read magic reached blocked
      exact stopped_not_cleaned fails mem mem0 mm0 satp file kargv works created fault stopped cleans
    refine ⟨passes, fun ret mem' mm' made program => ?_⟩
    obtain ⟨ret1, mem1, mm1, made1, again, low, after⟩ := ends passes
    rw [program] at again
    simp only [Except.ok.injEq, Prod.mk.injEq] at again
    obtain ⟨rfl, rfl, rfl, rfl⟩ := again
    exact (cleans_up_program fails mem mem0 mm0 satp file kargv works created foreign claimed ret mem' mm' made program low after).mp cleans
  · intro can
    obtain ⟨passes, last⟩ := can
    obtain ⟨ret, mem', mm', made, program, low, after⟩ := ends passes
    exact (cleans_up_program fails mem mem0 mm0 satp file kargv works created foreign claimed ret mem' mm' made program low after).mpr
      (last ret mem' mm' made program)

-- No program at all: the root is there and goes.
def blankElf : ElfFile := storedElf zeroBytes

end Ucore.Exec
