import Ucore.Exec.ImageExact

set_option autoImplicit false

namespace Ucore.Exec

open Ucore.Lib Ucore.Vmm

-- A memory in which no allocation fails: the manager gives a free page where there is
-- one, and there is always a further one.
structure Ample (mem : Mem) : Prop where
  gives : ∀ free, (∃ page, free page = true) → ∃ page, mem.manager free = some page ∧ free page = true
  more : ∀ n, ∃ page, n ≤ page ∧ mem.free page = true

theorem ample_congr (mem mem' : Mem) (ample : Ample mem) (manager : mem'.manager = mem.manager) (removed : Nat)
    (free : ∀ page, page ≠ removed → mem.free page = true → mem'.free page = true) : Ample mem' := by
  refine ⟨by rw [manager]; exact ample.gives, fun n => ?_⟩
  obtain ⟨page, high, unused⟩ := ample.more (max n (removed + 1))
  exact ⟨page, by omega, free page (by omega) unused⟩

theorem alloc_ample (mem : Mem) (ample : Ample mem) : ∃ page mem', mem.allocPage = some (page, mem') ∧ Ample mem' := by
  obtain ⟨some', _, unused⟩ := ample.more 0
  obtain ⟨page, given, free⟩ := ample.gives mem.free ⟨some', unused⟩
  refine ⟨page, { mem with free := Function.update mem.free page false }, by simp only [Mem.allocPage, given, free, if_true], ?_⟩
  refine ample_congr mem _ ample rfl page fun other apart here => ?_
  simp only [Function.update_of_ne apart]
  exact here

theorem table_page_ample (mem : Mem) (ample : Ample mem) : ∃ page mem', tablePage mem = some (page, mem') ∧ Ample mem' := by
  obtain ⟨page, memA, got, ampleA⟩ := alloc_ample mem ample
  refine ⟨page, { memA.setRef page 1 with phys := memcpy memA.phys (page * pgSize) zeroBytes pgSize }, by rw [tablePage, got]; rfl, ?_⟩
  exact ample_congr memA _ ampleA rfl 0 fun _ _ here => here

theorem get_dir_ample (mem : Mem) (pgdir : Pgdir) (la : Nat) (ample : Ample mem) : ∃ dir mem', getDir mem pgdir la = some (dir, mem') ∧ Ample mem' := by
  cases here : pgdir.entries (pdx1 la) with
  | some dir => exact ⟨dir, mem, by simp only [getDir, here], ample⟩
  | none =>
      obtain ⟨page, mem', got, ample'⟩ := table_page_ample mem ample
      exact ⟨⟨page, fun _ => none⟩, mem', by simp only [getDir, here, got, Option.map_some], ample'⟩

theorem get_table_ample (mem : Mem) (dir : PageDir) (la : Nat) (ample : Ample mem) : ∃ table mem', getTable mem dir la = some (table, mem') ∧ Ample mem' := by
  cases here : dir.entries (pdx0 la) with
  | some table => exact ⟨table, mem, by simp only [getTable, here], ample⟩
  | none =>
      obtain ⟨page, mem', got, ample'⟩ := table_page_ample mem ample
      exact ⟨⟨page, fun _ => none⟩, mem', by simp only [getTable, here, got, Option.map_some], ample'⟩

theorem get_pte_ample (mem : Mem) (pgdir : Pgdir) (la : Nat) (ample : Ample mem) : ∃ mem' pgdir', getPte mem pgdir la = (true, mem', pgdir') ∧ Ample mem' := by
  obtain ⟨dir, memD, gotDir, ampleD⟩ := get_dir_ample mem pgdir la ample
  obtain ⟨table, memT, gotTable, ampleT⟩ := get_table_ample memD dir la ampleD
  exact ⟨memT, pgdir.setDir (pdx1 la) (some (dir.setTable (pdx0 la) (some table))), by simp only [getPte, gotDir, gotTable], ampleT⟩

theorem page_remove_ample (mem mem' : Mem) (pgdir pgdir' : Pgdir) (la : Nat) (ample : Ample mem) (ran : pageRemovePte mem pgdir la = .ok (mem', pgdir')) :
    Ample mem' := by
  unfold pageRemovePte at ran
  split at ran
  · rename_i pte _
    have lower : Ample (mem.setRef pte.ppn (mem.ref pte.ppn - 1)) := ample_congr mem _ ample rfl 0 fun _ _ here => here
    by_cases last : (mem.setRef pte.ppn (mem.ref pte.ppn - 1)).ref pte.ppn = 0
    · simp only [if_pos last] at ran
      obtain ⟨memD, dropped, ran⟩ := bind_ok ran
      obtain ⟨rfl, _⟩ := Prod.mk.inj (Except.ok.inj ran)
      rw [Mem.freePage] at dropped
      split at dropped
      · cases dropped
      · rw [← Except.ok.inj dropped]
        refine ample_congr _ _ lower rfl 0 fun page _ here => ?_
        by_cases same : page = pte.ppn
        · simp [same]
        · simpa [Function.update_of_ne same] using here
    · simp only [if_neg last, ok_bind, pure_ok, Except.ok.injEq, Prod.mk.injEq] at ran
      rw [← ran.1]
      exact lower
  · obtain ⟨rfl, _⟩ := Prod.mk.inj (Except.ok.inj ran)
    exact ample

theorem page_insert_ample (mem mem' : Mem) (pgdir pgdir' : Pgdir) (page la perm : Nat) (ret : Int) (ample : Ample mem)
    (ran : pageInsert mem pgdir page la perm = .ok (ret, mem', pgdir')) : ret = 0 ∧ Ample mem' := by
  obtain ⟨memG, pgdirG, got, ampleG⟩ := get_pte_ample mem pgdir la ample
  have ampleR : Ample (memG.setRef page (memG.ref page + 1)) := ample_congr memG _ ampleG rfl 0 fun _ _ here => here
  simp only [pageInsert, got] at ran
  split at ran
  · rename_i pte _
    by_cases same : pte.ppn = page
    · simp only [if_pos same, ok_bind, pure_ok, Except.ok.injEq, Prod.mk.injEq] at ran
      obtain ⟨rfl, rfl, _⟩ := ran
      exact ⟨rfl, ample_congr _ _ ampleR rfl 0 fun _ _ here => here⟩
    · simp only [if_neg same] at ran
      obtain ⟨⟨memD, pgdirD⟩, dropped, ran⟩ := bind_ok ran
      simp only [pure_ok, Except.ok.injEq, Prod.mk.injEq] at ran
      obtain ⟨rfl, rfl, _⟩ := ran
      exact ⟨rfl, page_remove_ample _ _ _ _ la ampleR dropped⟩
  · simp only [ok_bind, pure_ok, Except.ok.injEq, Prod.mk.injEq] at ran
    obtain ⟨rfl, rfl, _⟩ := ran
    exact ⟨rfl, ampleR⟩

theorem pgdir_alloc_ample (mem mem' : Mem) (pgdir pgdir' : Pgdir) (la perm : Nat) (found : Option Nat) (ample : Ample mem)
    (ran : pgdirAllocPage mem pgdir la perm = .ok (found, mem', pgdir')) : found ≠ none ∧ Ample mem' := by
  obtain ⟨page, memA, got, ampleA⟩ := alloc_ample mem ample
  simp only [pgdirAllocPage, got] at ran
  obtain ⟨⟨ret, memI, pgdirI⟩, inserted, ran⟩ := bind_ok ran
  obtain ⟨rfl, ampleI⟩ := page_insert_ample memA memI pgdir pgdirI page la perm ret ampleA inserted
  simp only [ne_eq, not_true_eq_false, if_false] at ran
  obtain ⟨_, ran⟩ := check_bind_ok ran
  simp only [pure_ok, Except.ok.injEq, Prod.mk.injEq] at ran
  obtain ⟨rfl, rfl, _⟩ := ran
  exact ⟨by simp, ampleI⟩

-- The loops go to their ends when the bytes are in the file.
theorem load_text_ample (file : ElfFile) (perm stop fuel : Nat) (mem mem' : Mem) (pgdir pgdir' : Pgdir) (start la offset start' la' : Nat) (ret : Int)
    (ample : Ample mem) (here : start < stop → start < la + pgSize) (data : start < stop → offset + (stop - start) ≤ file.size)
    (ran : loadText noFailures file mem pgdir perm stop start la offset fuel = .ok (ret, mem', pgdir', start', la')) : ret = 0 ∧ Ample mem' := by
  induction fuel generalizing mem pgdir start la offset with
  | zero => simp [loadText] at ran
  | succ fuel ih =>
      rw [loadText] at ran
      by_cases before : start < stop
      · rw [if_pos before] at ran
        obtain ⟨⟨found, memA, pgdirA⟩, allocated, ran⟩ := bind_ok ran
        obtain ⟨given, ampleA⟩ := pgdir_alloc_ample mem memA pgdir pgdirA la perm found ample allocated
        cases found with
        | none => exact absurd rfl given
        | some page =>
            have ended := round_end start stop la before (here before)
            have size : 0 < roundSize start stop la ∧ start + roundSize start stop la ≤ stop := by
              have upper := here before
              by_cases far : stop < la + pgSize
              · rw [if_pos far] at ended
                omega
              · rw [if_neg far] at ended
                omega
            have bytes := data before
            simp only [load_icode_read_inside noFailures file memA (roundSize start stop la) offset rfl (by omega), ok_bind, ne_eq,
              not_true_eq_false, if_false] at ran
            refine ih { memA with phys := memcpy memA.phys (roundAddr page start la) (file.bytes.from offset) (roundSize start stop la) } pgdirA _ _ _
              (ample_congr memA _ ampleA rfl 0 fun _ _ unused => unused) (fun more => ?_) (fun more => by omega) ran
            rw [ended] at more ⊢
            by_cases far : stop < la + pgSize
            · rw [if_pos far] at more
              omega
            · rw [if_neg far]
              exact Nat.lt_add_of_pos_right (by decide)
      · rw [if_neg before] at ran
        simp only [pure_ok, Except.ok.injEq, Prod.mk.injEq] at ran
        obtain ⟨rfl, rfl, _⟩ := ran
        exact ⟨rfl, ample⟩

theorem build_bss_ample (perm stop fuel : Nat) (mem mem' : Mem) (pgdir pgdir' : Pgdir) (start la : Nat) (ret : Int) (ample : Ample mem)
    (ran : buildBss mem pgdir perm stop start la fuel = .ok (ret, mem', pgdir')) : ret = 0 ∧ Ample mem' := by
  induction fuel generalizing mem pgdir start la with
  | zero => simp [buildBss] at ran
  | succ fuel ih =>
      rw [buildBss] at ran
      by_cases before : start < stop
      · rw [if_pos before] at ran
        obtain ⟨⟨found, memA, pgdirA⟩, allocated, ran⟩ := bind_ok ran
        obtain ⟨given, ampleA⟩ := pgdir_alloc_ample mem memA pgdir pgdirA la perm found ample allocated
        cases found with
        | none => exact absurd rfl given
        | some page =>
            obtain ⟨_, ran⟩ := check_bind_ok ran
            exact ih { memA with phys := memcpy memA.phys (roundAddr page start la) zeroBytes (roundSize start stop la) } pgdirA _ _
              (ample_congr memA _ ampleA rfl 0 fun _ _ unused => unused) ran
      · rw [if_neg before] at ran
        simp only [pure_ok, Except.ok.injEq, Prod.mk.injEq] at ran
        obtain ⟨rfl, rfl, _⟩ := ran
        exact ⟨rfl, ample⟩

theorem stack_pages_ample (places : List Nat) (mem mem' : Mem) (pgdir pgdir' : Pgdir) (ret : Int) (ample : Ample mem)
    (ran : stackPages mem pgdir places = .ok (ret, mem', pgdir')) : ret = 0 ∧ Ample mem' := by
  induction places generalizing mem pgdir with
  | nil =>
      simp only [stackPages, Except.ok.injEq, Prod.mk.injEq] at ran
      obtain ⟨rfl, rfl, _⟩ := ran
      exact ⟨rfl, ample⟩
  | cons i rest ih =>
      rw [stackPages] at ran
      obtain ⟨⟨found, memA, pgdirA⟩, allocated, ran⟩ := bind_ok ran
      obtain ⟨given, ampleA⟩ := pgdir_alloc_ample mem memA pgdir pgdirA _ _ found ample allocated
      cases found with
      | none => exact absurd rfl given
      | some page => exact ih memA pgdirA ampleA ran

-- mm_map on a range that is free.
theorem mm_map_or_new (mm : Mm) (addr len vmFlags : Nat) (made : List Block) (mapped : Mapped mm made)
    (user : UserAccess (roundDown addr pgSize) (mapStop addr len)) (free : ∀ vma ∈ mm.mmapList, ¬ vma.Meets (roundDown addr pgSize) (mapStop addr len)) :
    ∃ mm' new, mmMapOr noFailures mm addr len vmFlags = .ok (0, mm', new) := by
  have ordered := areas_ordered mm.mmapList mapped.areas
  have gap : ∀ vma ∈ mm.mmapList, ¬ vma.Has (roundDown addr pgSize) := fun vma member inside =>
    free vma member ⟨Nat.lt_of_le_of_lt inside.1 user.2.1, inside.2⟩
  have missed := (find_vma_none mm (roundDown addr pgSize) ordered mapped.cached).mpr gap
  obtain ⟨mm', ran⟩ : ∃ mm', insertVmaStruct mm ⟨roundDown addr pgSize, mapStop addr len, vmFlags⟩ = .ok mm' := by
    obtain ⟨_, _, _, _, ran⟩ := insert_vma_ok mm ⟨roundDown addr pgSize, mapStop addr len, vmFlags⟩ ordered user.2.1 fun other member => by
      have away := free other member
      simp only [Vma.Meets] at away
      simp only [Vma.Apart]
      omega
    exact ⟨_, ran⟩
  refine ⟨mm', [.vma ⟨roundDown addr pgSize, mapStop addr len, vmFlags⟩], ?_⟩
  rw [mm_map_or_eq, if_neg (not_not.mpr user), find_vma_snd, missed]
  simp only [Option.any_none, Option.isSome_none, Bool.false_eq_true, if_false, noFailures, ran, ok_bind, pure_ok]

-- What the code asks of a segment.
structure Proghdr.Fits (file : ElfFile) (ph : Proghdr) : Prop where
  sizes : ph.pFilesz ≤ ph.pMemsz
  base : userBase ≤ ph.pVa
  top : ph.pVa + ph.pMemsz ≤ ustackTop - ustackSize
  area : ∃ vpn, ph.InArea vpn
  data : 0 < ph.pFilesz → ph.pOffset + ph.pFilesz ≤ file.size

theorem fits_user (file : ElfFile) (ph : Proghdr) (fits : ph.Fits file) :
    UserAccess (roundDown ph.pVa pgSize) (mapStop ph.pVa ph.pMemsz) ∧ ph.pVa + ph.pMemsz ≤ userTop := by
  obtain ⟨vpn, low, high⟩ := fits.area
  have base := fits.base
  have top := fits.top
  rw [map_stop_small ph.pVa ph.pMemsz (by simp only [ustackTop, ustackSize, ustackPage, userTop, pgSize] at top; omega)]
  simp only [UserAccess, roundUp, roundDown, userBase, userTop, ustackTop, ustackSize, ustackPage, pgSize] at *
  omega

theorem load_segment_ample (file : ElfFile) (mem mem' : Mem) (mm mm1 mm' : Mm) (ph : Proghdr) (new made : List Block) (ret : Int) (ample : Ample mem)
    (fits : ph.Fits file) (mapped : mmMapOr noFailures mm ph.pVa ph.pMemsz ph.vmFlags = .ok (0, mm1, new))
    (ran : loadSegment noFailures file mem mm ph = .ok (ret, mem', mm', made)) : ret = 0 ∧ Ample mem' := by
  have sizes := fits.sizes
  have user := (fits_user file ph fits).2
  have small : ph.pVa + ph.pFilesz < 2 ^ 64 := by
    simp only [userTop] at user
    omega
  rw [loadSegment, if_neg (by omega), mapped, ok_bind] at ran
  simp only [ne_eq, not_true_eq_false, if_false] at ran
  obtain ⟨⟨retT, mem1, pgdir1, start, la⟩, text, ran⟩ := bind_ok ran
  rw [Nat.mod_eq_of_lt small] at text
  obtain ⟨rfl, ample1⟩ := load_text_ample file _ _ _ mem mem1 mm1.pgdir pgdir1 _ _ _ start la retT ample (fun _ => by
    simp only [roundDown, pgSize]
    omega) (fun some' => by
    have data := fits.data (by omega)
    omega) text
  simp only [not_true_eq_false, if_false] at ran
  obtain ⟨⟨retB, mem2, pgdir2⟩, bss, ran⟩ := bind_ok ran
  simp only [pure_ok, Except.ok.injEq, Prod.mk.injEq] at ran
  obtain ⟨rfl, rfl, _⟩ := ran
  exact build_bss_ample _ _ _ mem1 mem2 pgdir1 pgdir2 _ _ retB ample1 bss

def PagesApart (ph other : Proghdr) : Prop := ∀ vpn, ph.InArea vpn → ¬ other.InArea vpn

theorem pages_apart_meets (file : ElfFile) (ph other : Proghdr) (fits : ph.Fits file) (fits' : other.Fits file) (apart : PagesApart ph other) :
    ¬ ph.vma.Meets (roundDown other.pVa pgSize) (mapStop other.pVa other.pMemsz) := by
  intro meets
  have user := (fits_user file ph fits).2
  have user' := (fits_user file other fits').2
  obtain ⟨vpn, low, high⟩ := fits.area
  obtain ⟨vpn', low', high'⟩ := fits'.area
  have here := apart (max (ph.pVa / pgSize) (other.pVa / pgSize))
  have stop := map_stop_small ph.pVa ph.pMemsz (by simp only [userTop] at user; omega)
  have stop' := map_stop_small other.pVa other.pMemsz (by simp only [userTop] at user'; omega)
  simp only [Vma.Meets, Proghdr.vma, stop, stop', roundUp, roundDown, Proghdr.InArea, pgSize] at *
  omega

section Run

variable (foreign : Nat → Prop) (file : ElfFile)

-- No page of the image lies beside another one.
def Isolated (foreign : Nat → Prop) : Prop := ∀ page, ¬ foreign page → 0 < page ∧ foreign (page - 1)

-- The frame below a new page is then no table of the image.
theorem isolated_misses (isolated : Isolated foreign) (mem mem1 : Mem) (mm mm1 : Mm) (ph : Proghdr) (made new : List Block)
    (loading : Loading mem mm made foreign) (pgdir1 pgdir2 : Pgdir) (mem2 : Mem) (page start la : Nat)
    (mapped : mmMapOr noFailures mm ph.pVa ph.pMemsz ph.vmFlags = .ok (0, mm1, new))
    (text : loadText noFailures file mem mm1.pgdir (pagePerm ph.vmFlags) ((ph.pVa + ph.pFilesz) % 2 ^ 64) ph.pVa (roundDown ph.pVa pgSize) ph.pOffset
      (loopFuel ph.pVa ((ph.pVa + ph.pFilesz) % 2 ^ 64)) = .ok (0, mem1, pgdir1, start, la))
    (before : start < (ph.pVa + ph.pMemsz) % 2 ^ 64)
    (allocated : pgdirAllocPage mem1 pgdir1 la (pagePerm ph.vmFlags) = .ok (some page, mem2, pgdir2)) (size : Nat) :
    struck pgdir2 page start la size = false := by
  have map := (mm_map_or_ok noFailures mm mm1 _ _ _ new mapped).1
  obtain ⟨low, high⟩ := map_stop_le _ _ (mm_map_user mm mm1 _ _ _ map)
  rw [(mm_map_shape mm mm1 _ _ _ map).1] at text
  have within : ph.pVa < ph.pVa / pgSize * pgSize + pgSize := by
    simp only [pgSize]
    omega
  obtain ⟨image1, started, reached, _⟩ := load_text_pages foreign _ (pagePerm ph.vmFlags) _ noFailures file mem mem1 mm.pgdir pgdir1 ph.pVa
    (ph.pVa / pgSize) ph.pOffset _ start la loading.built.image (fun _ => ⟨Nat.div_mul_le_self _ _, within⟩) (by omega) text
  have near := text_stop_near ph
  have begins : start = textStop ph := started
  have stands : la = (ph.pVa / pgSize + textPages ph) * pgSize := reached
  rw [← begins, ← stands] at near
  have small : la / pgSize < nPages := by
    simp only [nPages, pgSize, userTop] at *
    omega
  obtain ⟨image2, given⟩ := given_image mem1 mem2 pgdir1 pgdir2 foreign _ la (pagePerm ph.vmFlags) page image1 small allocated
  by_contra hit
  obtain ⟨a, table, here, below⟩ := struck_table pgdir2 page start la size (by simpa using hit)
  have own : ¬ foreign page := fun inForeign => by
    have used := image1.space.foreignUsed page inForeign
    rw [given.fresh] at used
    cases used
  have neighbour := (isolated page own).2
  rw [show page - 1 = table by omega] at neighbour
  exact (image2.space.tables a table here).2.1 neighbour

-- Nothing stops the load of a segment that fits, apart from the areas so far.
theorem fits_passes (isolated : Isolated foreign) (mem : Mem) (mm : Mm) (ph : Proghdr) (made : List Block) (loading : Loading mem mm made foreign)
    (phFits : ph.Fits file) (free : ∀ vma ∈ mm.mmapList, ¬ vma.Meets (roundDown ph.pVa pgSize) (mapStop ph.pVa ph.pMemsz)) (point : Point)
    (reached : SegmentPoint noFailures file mem mm ph point) : point.Passes noFailures file := by
  cases reached with
  | ask => exact .inr (.inr (.inr free))
  | seek _ _ _ _ _ _ before _ =>
      have some' : 0 < ph.pFilesz := by
        by_contra none
        rw [Nat.eq_zero_of_not_pos none, Nat.add_zero] at before
        exact absurd (Nat.mod_le ph.pVa (2 ^ 64)) (Nat.not_le.mpr before)
      have data := phFits.data some'
      exact (seek_in_file noFailures file ph.pOffset (by omega)).2
  | clear mmP memP memQ pgdirP pgdirQ newP page start la mappedP text before allocated =>
      exact isolated_misses foreign file isolated mem memP mm mmP ph made newP loading pgdirP pgdirQ memQ page start la mappedP text before
        allocated _

theorem load_segments_ample (isolated : Isolated foreign) (left phoff : Nat) (mem : Mem) (mm : Mm) (made : List Block)
    (loading : Loading mem mm made foreign) (ample : Ample mem)
    (done : List Proghdr) (listed : ∀ vma ∈ mm.mmapList, ∃ ph ∈ done, vma = ph.vma) (readable : phoff + sizeofProghdr * left ≤ file.size)
    (fits : ∀ ph ∈ done ++ (programHeaders file phoff left).filter (fun ph => ph.pType = elfPtLoad), ph.Fits file)
    (apart : (done ++ (programHeaders file phoff left).filter (fun ph => ph.pType = elfPtLoad)).Pairwise PagesApart) :
    ∃ mem' mm' new, loadSegments noFailures file mem mm phoff left = .ok (0, mem', mm', new) ∧ Loading mem' mm' (made ++ new) foreign ∧ Ample mem' ∧
      ∀ vma ∈ mm'.mmapList, ∃ ph ∈ done ++ (programHeaders file phoff left).filter (fun ph => ph.pType = elfPtLoad), vma = ph.vma := by
  induction left generalizing phoff mem mm made done with
  | zero =>
      refine ⟨mem, mm, [], rfl, by rwa [List.append_nil], ample, fun vma member => ?_⟩
      obtain ⟨ph, inDone, same⟩ := listed vma member
      exact ⟨ph, List.mem_append_left _ inDone, same⟩
  | succ left ih =>
      rw [Nat.mul_succ] at readable
      have read := load_icode_read_inside noFailures file mem sizeofProghdr phoff rfl (by omega)
      rw [loadSegments, read, ok_bind]
      simp only [ne_eq, not_true_eq_false, if_false]
      by_cases other : (proghdrAt (file.bytes.from phoff)).pType ≠ elfPtLoad
      · rw [programHeaders, List.filter_cons_of_neg (by simpa using other)] at fits apart ⊢
        rw [if_pos other]
        exact ih (phoff + sizeofProghdr) mem mm made loading ample done listed (by omega) fits apart
      · rw [programHeaders, List.filter_cons_of_pos (by simpa using other)] at fits apart ⊢
        rw [if_neg other]
        generalize proghdrAt (file.bytes.from phoff) = ph at fits apart ⊢
        have phFits := fits ph (by simp)
        have user := (fits_user file ph phFits).1
        have free : ∀ vma ∈ mm.mmapList, ¬ vma.Meets (roundDown ph.pVa pgSize) (mapStop ph.pVa ph.pMemsz) := by
          intro vma member
          obtain ⟨old, inDone, rfl⟩ := listed vma member
          have between := (List.pairwise_append.mp apart).2.2 old inDone ph (by simp)
          exact pages_apart_meets file old ph (fits old (List.mem_append_left _ inDone)) phFits between
        obtain ⟨mm1, area, mapped⟩ := mm_map_or_new mm ph.pVa ph.pMemsz ph.vmFlags made loading.mapped user free
        have passes := fits_passes foreign file isolated mem mm ph made loading phFits free
        obtain ⟨ret, mem1, mm2, new, ran, _, after⟩ := load_segment_loading foreign noFailures file mem mm ph made loading fun _ => passes
        obtain ⟨rfl, ample1⟩ := load_segment_ample file mem mem1 mm mm1 mm2 ph area new ret ample phFits mapped ran
        have members : ∀ vma ∈ mm2.mmapList, ∃ old ∈ done ++ [ph], vma = old.vma := by
          intro vma member
          obtain ⟨_, mmP, _, _, _, _, _, mappedP, _, _, rfl⟩ := load_segment_parts noFailures file mem mem1 mm mm2 ph new ran
          cases ((mm_map_shape mm mmP _ _ _ mappedP).2 vma).mp member with
          | inl same => exact ⟨ph, by simp, same⟩
          | inr old =>
              obtain ⟨before, inDone, same⟩ := listed vma old
              exact ⟨before, List.mem_append_left _ inDone, same⟩
        have whole : done ++ ph :: (programHeaders file (phoff + sizeofProghdr) left).filter (fun ph => ph.pType = elfPtLoad) =
            done ++ [ph] ++ (programHeaders file (phoff + sizeofProghdr) left).filter (fun ph => ph.pType = elfPtLoad) := by rw [List.append_assoc, List.singleton_append]
        rw [whole] at fits apart ⊢
        obtain ⟨mem', mm', others, rest, after', ample', all⟩ := ih (phoff + sizeofProghdr) mem1 mm2 (made ++ new) after ample1 (done ++ [ph]) members (by omega) fits apart
        refine ⟨mem', mm', new ++ others, ?_, by rwa [← List.append_assoc], ample', all⟩
        rw [ran, ok_bind]
        simp only [not_true_eq_false, if_false, rest, ok_bind, pure_ok]

-- What a file must be for load_icode to come to the arguments, with no wrap around.
structure Loadable : Prop where
  header : sizeofElfhdr ≤ file.size
  magic : (elfhdrAt file.bytes).eMagic = elfMagic
  headers : (elfhdrAt file.bytes).ePhoff + sizeofProghdr * (elfhdrAt file.bytes).ePhnum ≤ file.size
  fits : ∀ ph ∈ segments file, ph.Fits file
  apart : (segments file).Pairwise PagesApart

theorem loadable_builds (loadable : Loadable file) (mem : Mem) (ample : Ample mem) (clean : ∀ page, mem.free page = true → mem.ref page = 0)
    (isolated : Isolated fun page => mem.free page = false) : ∃ memS mmS, Builds noFailures mem file memS mmS := by
  obtain ⟨root, mem0, got, ample0⟩ := alloc_ample mem ample
  have created : mmCreate mem = some (⟨[], none, ⟨root, fun _ => none⟩, 0⟩, mem0) := by rw [mmCreate, got, Option.map_some]
  obtain ⟨foreign, loading, claimed⟩ := created_loading mem mem0 _ clean created
  have apart : Isolated foreign := by
    rw [show foreign = fun page => mem.free page = false from funext fun page => propext (claimed page)]
    exact isolated
  obtain ⟨mem1, mm1, made, loaded, loading1, ample1, listed⟩ := load_segments_ample foreign file apart _ _ mem0 _ [] loading ample0 []
    (fun _ member => (nomatch member)) loadable.headers (by rw [List.nil_append]; exact loadable.fits) (by rw [List.nil_append]; exact loadable.apart)
  have free : ∀ vma ∈ mm1.mmapList, ¬ vma.Meets (roundDown (ustackTop - ustackSize) pgSize) (mapStop (ustackTop - ustackSize) ustackSize) := by
    intro vma member meets
    obtain ⟨ph, inSegments, rfl⟩ := listed vma member
    have fits := loadable.fits ph (by rwa [List.nil_append] at inSegments)
    have top := fits.top
    have user := (fits_user file ph fits).2
    have stop := map_stop_small ph.pVa ph.pMemsz (by simp only [userTop] at user; omega)
    have start : roundDown (ustackTop - ustackSize) pgSize = ustackTop - ustackSize := by decide
    rw [start] at meets
    simp only [Vma.Meets, Proghdr.vma, stop, roundUp, roundDown, ustackTop, ustackSize, ustackPage, userTop, pgSize] at meets top
    omega
  obtain ⟨mm2, area, mapped⟩ := mm_map_or_new mm1 (ustackTop - ustackSize) ustackSize (vmRead ||| vmWrite ||| vmStack) _ loading1.mapped (by decide) free
  obtain ⟨ret, memS, mmS, stack, set, _, _⟩ := setup_stack_loading foreign noFailures mem1 mm1 _ loading1 (.inr (.inr (.inr free)))
  have zero : ret = 0 := by
    rw [setupStack, mapped, ok_bind] at set
    simp only [ne_eq, not_true_eq_false, if_false] at set
    obtain ⟨⟨retP, memP, pgdirP⟩, pages, set⟩ := bind_ok set
    simp only [pure_ok, Except.ok.injEq, Prod.mk.injEq] at set
    rw [← set.1]
    exact (stack_pages_ample _ mem1 memP mm2.pgdir pgdirP retP ample1 pages).1
  rw [zero] at set
  refine ⟨memS, mmS, ⟨rfl, rfl⟩, loadable.magic, _, mem0, mem1, mm1, made, stack, created, ?_, loaded, set⟩
  have read := load_icode_read_inside noFailures file mem0 sizeofElfhdr 0 rfl (by rw [Nat.zero_add]; exact loadable.header)
  rw [read, header_bytes noFailures file mem0 _ read]

end Run

-- A byte of a frame that is in use elsewhere and that is zero remains so.
def ZeroStays (foreign : Nat → Prop) (mem mem' : Mem) : Prop := ∀ addr, foreign (addr / pgSize) → mem.phys addr = 0 → mem'.phys addr = 0

theorem zero_stays_trans (foreign : Nat → Prop) (mem mem1 mem2 : Mem) (first : ZeroStays foreign mem mem1) (second : ZeroStays foreign mem1 mem2) :
    ZeroStays foreign mem mem2 := fun addr inForeign zero => second addr inForeign (first addr inForeign zero)

section Rounds

variable (foreign : Nat → Prop) (outside : Nat → Nat)

theorem given_zero (mem memA : Mem) (pgdir pgdirA : Pgdir) (vpn page perm : Nat) (image : Image mem pgdir foreign outside)
    (given : Given mem memA pgdir pgdirA vpn page perm) : ¬ foreign page ∧ ZeroStays foreign mem memA := by
  refine ⟨fun inForeign => ?_, fun addr inForeign zero => ?_⟩
  · have used := image.space.foreignUsed page inForeign
    rw [given.fresh] at used
    cases used
  · rw [given.phys addr (.inl (image.space.foreignUsed _ inForeign))]
    exact zero

-- The bytes of the file go into the page of their round.
theorem load_text_zero (fails : Failures) (file : ElfFile) (perm stop : Nat) (mem mem' : Mem) (pgdir pgdir' : Pgdir) (start vpn offset fuel start' la' : Nat)
    (image : Image mem pgdir foreign outside) (here : start < stop → vpn * pgSize ≤ start ∧ start < vpn * pgSize + pgSize)
    (near : start ≤ userTop + offset)
    (ran : loadText fails file mem pgdir perm stop start (vpn * pgSize) offset fuel = .ok (0, mem', pgdir', start', la')) : ZeroStays foreign mem mem' := by
  induction fuel generalizing mem pgdir start vpn offset with
  | zero => simp [loadText] at ran
  | succ fuel ih =>
      by_cases before : start < stop
      · obtain ⟨page, memA, pgdirA, buf, allocated, got, rest⟩ := load_text_round fails file mem mem' pgdir pgdir' perm stop start _ offset fuel
          start' la' before ran
        obtain ⟨below, size, _⟩ := load_icode_read_ok fails file _ _ _ buf got
        obtain ⟨lower, upper⟩ := here before
        have small : vpn < nPages := by
          simp only [nPages, pgSize, userTop, sfsMaxFileSize] at *
          omega
        have index := page_index vpn
        obtain ⟨imageA, given⟩ := given_image mem memA pgdir pgdirA foreign outside (vpn * pgSize) perm page image (by rwa [index]) allocated
        rw [index] at given
        obtain ⟨own, stays⟩ := given_zero foreign outside mem memA pgdir pgdirA vpn page perm image given
        have next : vpn * pgSize + pgSize = (vpn + 1) * pgSize := by rw [Nat.succ_mul]
        rw [next] at rest
        have later := ih _ pgdirA (start + roundSize start stop (vpn * pgSize)) (vpn + 1) (offset + roundSize start stop (vpn * pgSize))
          (image_phys memA pgdirA foreign outside imageA _) (fun more => by
            rw [round_next start stop vpn before upper more]
            exact ⟨Nat.le_refl _, Nat.lt_add_of_pos_right (by decide)⟩) (by omega) rest
        refine zero_stays_trans foreign mem _ mem' (fun addr inForeign zero => ?_) later
        have other : addr / pgSize ≠ page := fun same => own (same ▸ inForeign)
        have inside := round_inside start stop vpn before upper
        have place : roundAddr page start (vpn * pgSize) = page * pgSize + (start - vpn * pgSize) := by
          unfold roundAddr roundOff
          omega
        simp only [place]
        rw [memcpy_outside _ _ _ _ _ (by simp only [pgSize] at *; omega)]
        exact stays addr inForeign zero
      · obtain ⟨rfl, _, _, _⟩ := load_text_done fails file mem mem' pgdir pgdir' perm stop start _ offset fuel start' la' before ran
        exact fun _ _ zero => zero

theorem memcpy_zero_stays (phys : Bytes) (place size addr : Nat) (zero : phys addr = 0) : memcpy phys place zeroBytes size addr = 0 := by
  by_cases inside : place ≤ addr ∧ addr < place + size
  · rw [memcpy_inside _ _ _ _ _ inside.1 inside.2]
    rfl
  · rw [memcpy_outside _ _ _ _ _ (by omega)]
    exact zero

-- The zeros may go anywhere.
theorem build_bss_zero (perm stop : Nat) (mem mem' : Mem) (pgdir pgdir' : Pgdir) (start vpn fuel : Nat) (image : Image mem pgdir foreign outside)
    (here : start < stop → start < vpn * pgSize + pgSize ∧ vpn * pgSize < start + pgSize) (user : start < stop → stop ≤ userTop)
    (ran : buildBss mem pgdir perm stop start (vpn * pgSize) fuel = .ok (0, mem', pgdir')) : ZeroStays foreign mem mem' := by
  induction fuel generalizing mem pgdir start vpn with
  | zero => simp [buildBss] at ran
  | succ fuel ih =>
      by_cases before : start < stop
      · obtain ⟨page, memA, pgdirA, allocated, rest⟩ := build_bss_round mem mem' pgdir pgdir' perm stop start _ fuel before ran
        obtain ⟨upper, lower⟩ := here before
        have high := user before
        have small : vpn < nPages := by
          simp only [nPages, pgSize, userTop] at *
          omega
        have index := page_index vpn
        obtain ⟨imageA, given⟩ := given_image mem memA pgdir pgdirA foreign outside (vpn * pgSize) perm page image (by rwa [index]) allocated
        rw [index] at given
        obtain ⟨_, stays⟩ := given_zero foreign outside mem memA pgdir pgdirA vpn page perm image given
        have next : vpn * pgSize + pgSize = (vpn + 1) * pgSize := by rw [Nat.succ_mul]
        rw [next] at rest
        have later := ih _ pgdirA (start + roundSize start stop (vpn * pgSize)) (vpn + 1) (image_phys memA pgdirA foreign outside imageA _)
          (fun more => by
            rw [round_next start stop vpn before upper more]
            exact ⟨Nat.lt_add_of_pos_right (by decide), Nat.lt_add_of_pos_right (by decide)⟩) (fun _ => high) rest
        exact zero_stays_trans foreign mem _ mem' (fun addr inForeign zero => memcpy_zero_stays _ _ _ addr (stays addr inForeign zero)) later
      · obtain ⟨rfl, _⟩ := build_bss_done mem mem' pgdir pgdir' perm stop start _ fuel before ran
        exact fun _ _ zero => zero

-- A first round behind its own bytes writes below its page.
theorem build_bss_spills (perm stop : Nat) (mem mem' : Mem) (pgdir pgdir' : Pgdir) (start vpn fuel : Nat) (image : Image mem pgdir foreign outside)
    (isolated : Isolated foreign) (before : start < stop) (user : stop ≤ userTop)
    (behind : start < vpn * pgSize ∧ vpn * pgSize < start + pgSize)
    (ran : buildBss mem pgdir perm stop start (vpn * pgSize) (fuel + 1) = .ok (0, mem', pgdir')) : ∃ addr, foreign (addr / pgSize) ∧ mem'.phys addr = 0 := by
  obtain ⟨page, memA, pgdirA, allocated, rest⟩ := build_bss_round mem mem' pgdir pgdir' perm stop start _ fuel before ran
  have small : vpn < nPages := by
    simp only [nPages, pgSize, userTop] at *
    omega
  have index := page_index vpn
  obtain ⟨imageA, given⟩ := given_image mem memA pgdir pgdirA foreign outside (vpn * pgSize) perm page image (by rwa [index]) allocated
  rw [index] at given
  obtain ⟨own, _⟩ := given_zero foreign outside mem memA pgdir pgdirA vpn page perm image given
  obtain ⟨positive, neighbour⟩ := isolated page own
  have upper : start < vpn * pgSize + pgSize := by omega
  have next : vpn * pgSize + pgSize = (vpn + 1) * pgSize := by rw [Nat.succ_mul]
  rw [next] at rest
  have later := build_bss_zero foreign outside perm stop _ mem' pgdirA pgdir' (start + roundSize start stop (vpn * pgSize)) (vpn + 1) fuel
    (image_phys memA pgdirA foreign outside imageA _) (fun more => by
      rw [round_next start stop vpn before upper more]
      exact ⟨Nat.lt_add_of_pos_right (by decide), Nat.lt_add_of_pos_right (by decide)⟩) (fun _ => user) rest
  have place : roundAddr page start (vpn * pgSize) = (page - 1) * pgSize + (pgSize - (vpn * pgSize - start)) := by
    unfold roundAddr roundOff
    simp only [pgSize] at behind ⊢
    omega
  have below : roundAddr page start (vpn * pgSize) / pgSize = page - 1 := by
    rw [place]
    simp only [pgSize] at behind ⊢
    omega
  refine ⟨roundAddr page start (vpn * pgSize), by rwa [below], later _ (by rwa [below]) ?_⟩
  have size := round_positive start stop vpn before upper
  simp only []
  rw [memcpy_inside _ _ _ _ _ (Nat.le_refl _) (by omega)]
  rfl

end Rounds

section Loads

variable (foreign : Nat → Prop) (outside : Nat → Nat) (fails : Failures) (file : ElfFile)

theorem load_segment_zero (mem mem' : Mem) (mm mm' : Mm) (ph : Proghdr) (made : List Block) (image : Image mem mm.pgdir foreign outside)
    (ran : loadSegment fails file mem mm ph = .ok (0, mem', mm', made)) : ZeroStays foreign mem mem' ∧
      (Isolated foreign → ph.pVa + ph.pMemsz ≤ userTop → ¬ ph.Plain →
        ∃ addr, foreign (addr / pgSize) ∧ mem'.phys addr = 0) := by
  obtain ⟨sizes, mm1, mem1, pgdir1, start, la, pgdir2, mapped, text, bss, rfl⟩ := load_segment_parts fails file mem mem' mm mm' ph made ran
  obtain ⟨low, high⟩ := map_stop_le _ _ (mm_map_user mm mm1 _ _ _ mapped)
  rw [(mm_map_shape mm mm1 _ _ _ mapped).1] at text
  have within : ph.pVa < ph.pVa / pgSize * pgSize + pgSize := by
    simp only [pgSize]
    omega
  obtain ⟨image1, started, reached, _⟩ := load_text_pages foreign outside (pagePerm ph.vmFlags) _ fails file mem mem1 mm.pgdir pgdir1 ph.pVa
    (ph.pVa / pgSize) ph.pOffset _ start la image (fun _ => ⟨Nat.div_mul_le_self _ _, within⟩) (by omega) text
  have first := load_text_zero foreign outside fails file (pagePerm ph.vmFlags) _ mem mem1 mm.pgdir pgdir1 ph.pVa (ph.pVa / pgSize) ph.pOffset _ start la image
    (fun _ => ⟨Nat.div_mul_le_self _ _, within⟩) (by omega) text
  have begins : start = textStop ph := started
  have stands : la = (ph.pVa / pgSize + textPages ph) * pgSize := reached
  rw [begins, stands] at bss
  have near := text_stop_near ph
  refine ⟨zero_stays_trans foreign mem mem1 mem' first (build_bss_zero foreign outside (pagePerm ph.vmFlags) _ mem1 mem' pgdir1 pgdir2 (textStop ph) _ _ image1
    (fun _ => near) (fun _ => high) bss), fun isolated user ragged => ?_⟩
  have small : ph.pVa + ph.pMemsz < 2 ^ 64 := by
    simp only [userTop] at user
    omega
  simp only [Proghdr.Plain, not_or] at ragged
  have behind : textStop ph < (ph.pVa / pgSize + textPages ph) * pgSize := by
    rw [text_stop_eq ph sizes user, text_pages_eq ph sizes user, if_pos (by omega)]
    simp only [pgSize] at ragged ⊢
    omega
  have before : textStop ph < (ph.pVa + ph.pMemsz) % 2 ^ 64 := by
    rw [text_stop_eq ph sizes user, Nat.mod_eq_of_lt small]
    omega
  exact build_bss_spills foreign outside _ _ mem1 mem' pgdir1 pgdir2 _ _ _ image1 isolated before high ⟨behind, near.2⟩ bss

theorem loads_zero (list : List Proghdr) (mem mem' : Mem) (mm mm' : Mm) (loads : LoadsAll fails file list mem mm mem' mm')
    (image : Image mem mm.pgdir foreign outside) : ZeroStays foreign mem mem' ∧
      (Isolated foreign → (∀ ph ∈ list, ph.pVa + ph.pMemsz ≤ userTop) → (∃ ph ∈ list, ¬ ph.Plain) →
        ∃ addr, foreign (addr / pgSize) ∧ mem'.phys addr = 0) := by
  induction loads with
  | none mem mm =>
      refine ⟨fun _ _ zero => zero, fun _ _ found => ?_⟩
      obtain ⟨_, member, _⟩ := found
      cases member
  | next ph rest mem mem1 mem' mm mm1 mm' made first _ ih =>
      obtain ⟨stays, spills⟩ := load_segment_zero foreign outside fails file mem mem1 mm mm1 ph made image first
      obtain ⟨staysR, spillsR⟩ := ih (load_segment_pages foreign outside fails file mem mem1 mm mm1 ph made image first).1
      refine ⟨zero_stays_trans foreign mem mem1 mem' stays staysR, fun isolated user found => ?_⟩
      by_cases here : ph.Plain
      · obtain ⟨other, member, ragged⟩ := found
        refine spillsR isolated (fun later inRest => user later (List.mem_cons_of_mem _ inRest)) ⟨other, ?_, ragged⟩
        cases List.mem_cons.mp member with
        | inl same => exact absurd (same ▸ here) ragged
        | inr inRest => exact inRest
      · obtain ⟨addr, inForeign, zero⟩ := spills isolated (user ph (by simp)) here
        exact ⟨addr, inForeign, staysR addr inForeign zero⟩

theorem stack_pages_zero (places : List Nat) (mem mem' : Mem) (pgdir pgdir' : Pgdir) (image : Image mem pgdir foreign outside)
    (ran : stackPages mem pgdir places = .ok (0, mem', pgdir')) : ZeroStays foreign mem mem' := by
  induction places generalizing mem pgdir with
  | nil =>
      simp only [stackPages, Except.ok.injEq, Prod.mk.injEq, true_and] at ran
      obtain ⟨rfl, rfl⟩ := ran
      exact fun _ _ zero => zero
  | cons i rest ih =>
      rw [stackPages] at ran
      obtain ⟨⟨found, memA, pgdirA⟩, allocated, ran⟩ := bind_ok ran
      cases found with
      | none => simp [eNoMem] at ran
      | some page =>
          simp only [Option.isNone_some, Bool.false_eq_true, if_false] at ran
          have small : (ustackTop - i * pgSize) / pgSize < nPages := by
            simp only [ustackTop, userTop, pgSize, nPages]
            omega
          obtain ⟨imageA, given⟩ := given_image mem memA pgdir pgdirA foreign outside _ stackPerm page image small allocated
          exact zero_stays_trans foreign mem memA mem' (given_zero foreign outside mem memA pgdir pgdirA _ page stackPerm image given).2 (ih memA pgdirA imageA ran)

end Loads

-- No free page of this memory lies beside another, and no byte of it is zero.
open Classical in
noncomputable def evenMem : Mem where
  manager := fun free => if found : ∃ page, free page = true then some (Nat.find found) else none
  free := fun page => decide (page % 2 = 0 ∧ 2 ≤ page)
  ref := fun _ => 0
  phys := fun _ => 0xff
  freed := []

theorem even_mem_ample : Ample evenMem := by
  refine ⟨fun free found => ⟨_, dif_pos found, Nat.find_spec found⟩, fun n => ⟨2 * n + 2, by omega, ?_⟩⟩
  simp only [evenMem, decide_eq_true_eq]
  omega

theorem even_mem_isolated : Isolated fun page => evenMem.free page = false := by
  intro page own
  simp only [evenMem, Bool.not_eq_false, decide_eq_true_eq] at own
  refine ⟨by omega, ?_⟩
  simp only [evenMem, decide_eq_false_iff_not]
  omega

def oneArg : List (List UInt8) := [[0x61]]

theorem one_arg_accepted : Accepted oneArg := ⟨by decide, by decide, by decide, by decide⟩

section Loadable

variable (file : ElfFile) (loadable : Loadable file)

include loadable

-- A file that can be loaded is loaded with memory enough.
theorem loadable_loads (mem : Mem) (ample : Ample mem) (clean : ∀ page, mem.free page = true → mem.ref page = 0)
    (isolated : Isolated fun page => mem.free page = false) :
    ∃ memS outcome loaded sp, Builds noFailures mem file memS loaded.mm ∧ loadIcode noFailures mem 0 file oneArg = .ok outcome ∧ outcome.ret = 0 ∧
      outcome.current = some loaded ∧ setupArgs memS loaded.mm.pgdir oneArg = .ok (outcome.mem, sp) := by
  obtain ⟨memS, mmS, builds⟩ := loadable_builds file loadable mem ample clean isolated
  obtain ⟨foreign, outside, _, _, _, _, _, _, _, _, _, _, image⟩ := builds_parts noFailures mem memS file mmS clean builds
  obtain ⟨mem', args, _⟩ := setup_args_ok memS mmS.pgdir oneArg (phys_at_apart memS mmS.pgdir foreign outside image)
    (built_stack noFailures mem memS file mmS clean builds) (by decide)
  obtain ⟨made, run⟩ := load_icode_args noFailures mem memS 0 file mmS oneArg builds
  rw [args] at run
  exact ⟨memS, _, ⟨mmS, _⟩, _, builds, run, rfl, rfl, args⟩

-- A boundary between the bytes of the file and the zeros within a page: the zeros go
-- to the frame below.
theorem ragged_spoils (ragged : ∃ ph ∈ segments file, ¬ ph.Plain) : ¬ LoadsImage file := by
  intro image
  have clean : ∀ page, evenMem.free page = true → evenMem.ref page = 0 := fun _ _ => rfl
  obtain ⟨memS, outcome, loaded, sp, builds, ran, ret, current, args⟩ := loadable_loads file loadable evenMem even_mem_ample clean even_mem_isolated
  have shown := image noFailures evenMem 0 oneArg outcome loaded clean one_arg_accepted ran ret current
  obtain ⟨mm0, mem0, mem1, mm1, made, stack, created, _, loads, set⟩ := builds.steps
  have image0 := fresh_image evenMem mem0 mm0 clean created
  have all := load_segments_all noFailures file _ _ mem0 mem1 mm0 mm1 made loads
  have image1 := loads_image _ _ noFailures file _ mem0 mem1 mm0 mm1 all image0
  obtain ⟨mm2, pgdir', mapped, pages, whole⟩ := setup_stack_parts noFailures mem1 memS mm1 loaded.mm stack set
  rw [(mm_map_shape mm1 mm2 _ _ _ mapped).1] at pages
  have imageS := (stack_pages_image _ _ _ mem1 memS mm1.pgdir pgdir' image1 pages).1
  have same : loaded.mm.pgdir = pgdir' := by rw [whole]
  -- What is not foreign was free at first.
  obtain ⟨⟨root, memA⟩, got, shape⟩ := Option.map_eq_some_iff.mp created
  obtain ⟨rfl, rfl⟩ := Prod.mk.inj shape
  obtain ⟨free, rfl⟩ := alloc_page_spec evenMem memA root got
  have even : ∀ page, evenMem.free page = true ↔ page % 2 = 0 ∧ 2 ≤ page := fun page => by simp only [evenMem, decide_eq_true_eq]
  have isolated : ∀ page, ¬ (Function.update evenMem.free root false page = false ∧ page ≠ root) →
      0 < page ∧ Function.update evenMem.free root false (page - 1) = false ∧ page - 1 ≠ root := by
    intro page own
    have mine : page % 2 = 0 ∧ 2 ≤ page := by
      by_cases here : page = root
      · rw [here]
        exact (even root).mp free
      · refine (even page).mp ?_
        by_contra used
        exact own ⟨by rw [Function.update_of_ne here]; exact Bool.eq_false_iff.mpr used, here⟩
    have rootEven := (even root).mp free
    have apart : page - 1 ≠ root := by omega
    refine ⟨by omega, ?_, apart⟩
    rw [Function.update_of_ne apart]
    exact Bool.eq_false_iff.mpr fun unused => by
      have other := (even _).mp unused
      omega
  obtain ⟨_, spills⟩ := loads_zero _ _ noFailures file _ _ mem1 _ mm1 all image0
  obtain ⟨addr, inForeign, zero⟩ := spills isolated (fun ph member => (fits_user file ph (loadable.fits ph member)).2) ragged
  have zeroS := stack_pages_zero _ _ _ mem1 memS mm1.pgdir pgdir' image1 pages addr inForeign zero
  have outer : ¬ Own loaded.mm.pgdir (addr / pgSize) := by
    rw [same]
    intro owned
    cases owned with
    | inl table =>
        obtain ⟨a, here⟩ := table
        exact (imageS.space.tables a _ here).2.1 inForeign
    | inr mapped' =>
        obtain ⟨vpn, pte, bound, here, frame⟩ := mapped'
        exact (imageS.space.mapped _ ((count_pos pgdir' _).mpr ⟨vpn, bound, by simp [Pgdir.Maps, here, frame]⟩)).2 inForeign
  have kept := setup_args_frame loaded.mm.pgdir oneArg memS outcome.mem sp (by decide) args addr fun vb lower upper here => by
    obtain ⟨pte, entry, place⟩ := Option.map_eq_some_iff.mp here
    refine outer (.inr ⟨vb / pgSize, pte, ?_, entry, ?_⟩)
    · simp only [ustackTop, userTop, pgSize, nPages] at upper ⊢
      omega
    · simp only [pgSize] at place ⊢
      omega
  have clash := shown.outside addr outer
  have byte : evenMem.phys addr = 0xff := rfl
  rw [kept, zeroS, byte] at clash
  exact absurd clash (by decide)

-- The area of an empty segment has a page that nothing maps.
theorem empty_spoils (plain : ∀ ph ∈ segments file, ph.Plain) (ph : Proghdr) (member : ph ∈ segments file) (empty : ph.pMemsz = 0) : ¬ LoadsImage file := by
  intro image
  have clean : ∀ page, evenMem.free page = true → evenMem.ref page = 0 := fun _ _ => rfl
  obtain ⟨memS, outcome, loaded, sp, builds, ran, ret, current, _⟩ := loadable_loads file loadable evenMem even_mem_ample clean even_mem_isolated
  have shown := image noFailures evenMem 0 oneArg outcome loaded clean one_arg_accepted ran ret current
  have user : ∀ ph ∈ segments file, ph.pVa + ph.pMemsz ≤ userTop := fun ph member => (fits_user file ph (loadable.fits ph member)).2
  obtain ⟨_, _, pages, _, _, apart⟩ := plain_built noFailures evenMem memS file loaded.mm clean builds user plain
  obtain ⟨vpn, inside⟩ := (loadable.fits ph member).area
  have bound : vpn < nPages := by
    have high := inside.2
    have top := user ph member
    simp only [userTop, pgSize, nPages] at *
    omega
  have mapped := (shown.pages vpn bound).mpr (.inl ⟨ph, member, inside⟩)
  cases (pages vpn bound).mp mapped with
  | inl found =>
      obtain ⟨other, inSegments, positive, inOther⟩ := found
      have symm : Std.Symm PagesApart := ⟨fun _ _ apart vpn inRight inLeft => apart vpn inLeft inRight⟩
      have differ : ph ≠ other := by
        intro same
        rw [same] at empty
        omega
      exact loadable.apart.forall member inSegments differ vpn inside inOther
  | inr slot =>
      have away := apart_pages _ _ (apart ph member).2 (vpn * pgSize) ((vma_has_page ph (user ph member) vpn).mpr inside)
      rw [stack_vma_page] at away
      simp only [StackSlot, stackFirst, ustackTop, ustackSize, ustackPage, userTop, pgSize] at slot away
      omega

-- load_icode makes the image exactly when no segment is empty and each boundary
-- between bytes and zeros is one of pages.
theorem load_icode_image_iff : LoadsImage file ↔ ∀ ph ∈ segments file, 0 < ph.pMemsz ∧ ph.Plain := by
  constructor
  · intro image
    have plain : ∀ ph ∈ segments file, ph.Plain := by
      by_contra bad
      push Not at bad
      exact ragged_spoils file loadable bad image
    refine fun ph member => ⟨?_, plain ph member⟩
    by_contra empty
    exact empty_spoils file loadable plain ph member (by omega) image
  · exact good_loads_image file fun ph member => (fits_user file ph (loadable.fits ph member)).2

end Loadable

-- A segment of 16 bytes, and the same with 16 zeros behind them.
theorem small_loadable : Loadable smallElf := by
  have one : segments smallElf = [⟨1, 5, 120, 0x800000, 16, 16⟩] := by decide +kernel
  refine ⟨by decide, by decide +kernel, by decide +kernel, fun ph member => ?_, by rw [one]; exact List.pairwise_singleton _ _⟩
  rw [one, List.mem_singleton] at member
  subst member
  exact ⟨by decide, by decide, by decide, ⟨0x800, by decide, by decide⟩, fun _ => by decide⟩

theorem load_icode_image_small : LoadsImage smallElf := by
  refine (load_icode_image_iff smallElf small_loadable).mpr fun ph member => ?_
  have one : segments smallElf = [⟨1, 5, 120, 0x800000, 16, 16⟩] := by decide +kernel
  rw [one, List.mem_singleton] at member
  subst member
  exact ⟨by decide, by decide⟩

def bssElf : ElfFile := storedElf fun i => if i = 104 then 32 else smallBytes i

theorem load_icode_image_ragged : Loadable bssElf ∧ ¬ LoadsImage bssElf := by
  have one : segments bssElf = [⟨1, 5, 120, 0x800000, 16, 32⟩] := by decide +kernel
  have loadable : Loadable bssElf := by
    refine ⟨by decide, by decide +kernel, by decide +kernel, fun ph member => ?_, by rw [one]; exact List.pairwise_singleton _ _⟩
    rw [one, List.mem_singleton] at member
    subst member
    exact ⟨by decide, by decide, by decide, ⟨0x800, by decide, by decide⟩, fun _ => by decide⟩
  exact ⟨loadable, ragged_spoils bssElf loadable ⟨_, by rw [one]; exact List.mem_singleton.mpr rfl, by decide⟩⟩

end Ucore.Exec
