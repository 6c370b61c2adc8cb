import Ucore.Exec.SegmentBytes
import Ucore.Exec.LoadCleanup

set_option autoImplicit false

namespace Ucore.Exec

open Ucore.Lib Ucore.Vmm

-- The pages that load_icode maps for the stack, the highest of the user.
def StackSlot (vpn : Nat) : Prop := ustackTop / pgSize - 4 ≤ vpn ∧ vpn < ustackTop / pgSize

instance (vpn : Nat) : Decidable (StackSlot vpn) := inferInstanceAs (Decidable (ustackTop / pgSize - 4 ≤ vpn ∧ vpn < ustackTop / pgSize))

-- The image that the file describes: the bytes of its segments, the pages of their
-- areas and of the stack, and no write to a frame that is not of the new process.
structure ImageShown (file : ElfFile) (before after : Mem) (pgdir : Pgdir) : Prop where
  bytes : ∀ ph ∈ segments file, SegmentShown after pgdir file ph
  pages : ∀ vpn, vpn < nPages → (pgdir.entry vpn ≠ none ↔ (∃ ph ∈ segments file, ph.InArea vpn) ∨ StackSlot vpn)
  outside : ∀ addr, ¬ Own pgdir (addr / pgSize) → after.phys addr = before.phys addr

-- Every load of the file that succeeds gives the process the image.
def LoadsImage (file : ElfFile) : Prop :=
  ∀ (fails : Failures) (mem : Mem) (satp : Nat) (kargv : List (List UInt8)) (outcome : Outcome) (loaded : Loaded),
    (∀ page, mem.free page = true → mem.ref page = 0) → Accepted kargv → loadIcode fails mem satp file kargv = .ok outcome → outcome.ret = 0 →
      outcome.current = some loaded → ImageShown file mem outcome.mem loaded.mm.pgdir

theorem adds_widen (mem mem' : Mem) (pgdir pgdir' : Pgdir) (first count first' count' : Nat) (adds : Adds mem mem' pgdir pgdir' first count)
    (low : first' ≤ first) (high : first + count ≤ first' + count') : Adds mem mem' pgdir pgdir' first' count' :=
  ⟨fun va bound away => adds.kept va bound (by omega), adds.own, adds.outside⟩

theorem adds_trans (mem mem1 mem2 : Mem) (pgdir pgdir1 pgdir2 : Pgdir) (first count : Nat) (left : Adds mem mem1 pgdir pgdir1 first count)
    (right : Adds mem1 mem2 pgdir1 pgdir2 first count) : Adds mem mem2 pgdir pgdir2 first count := by
  refine ⟨fun va bound away => ?_, fun frame owned => right.own frame (left.own frame owned), fun addr apart => ?_⟩
  · rw [right.kept va bound away, left.kept va bound away]
  · rw [right.outside addr apart, left.outside addr fun owned => apart (right.own _ owned)]

def stackFirst : Nat := (ustackTop - ustackSize) / pgSize

-- The stack pages come in where nothing was.
theorem stack_pages_adds (foreign : Nat → Prop) (outside : Nat → Nat) (places : List Nat) (mem mem' : Mem) (pgdir pgdir' : Pgdir)
    (image : Image mem pgdir foreign outside) (once : places.Nodup) (inStack : ∀ i ∈ places, 1 ≤ i ∧ i ≤ ustackPage)
    (empty : ∀ i ∈ places, pgdir.entry ((ustackTop - i * pgSize) / pgSize) = none)
    (ran : stackPages mem pgdir places = .ok (0, mem', pgdir')) : Adds mem mem' pgdir pgdir' stackFirst ustackPage := by
  induction places generalizing mem pgdir with
  | nil =>
      simp only [stackPages, Except.ok.injEq, Prod.mk.injEq, true_and] at ran
      obtain ⟨rfl, rfl⟩ := ran
      exact adds_widen mem mem pgdir pgdir stackFirst 0 _ _ (adds_nothing mem pgdir stackFirst) (Nat.le_refl _) (Nat.le_add_right _ _)
  | cons i rest ih =>
      rw [stackPages] at ran
      obtain ⟨⟨found, memA, pgdirA⟩, allocated, ran⟩ := bind_ok ran
      cases found with
      | none => simp [eNoMem] at ran
      | some page =>
          simp only [Option.isNone_some, Bool.false_eq_true, if_false] at ran
          obtain ⟨low, high⟩ := inStack i (by simp)
          have place : ustackTop - i * pgSize = (ustackTop - i * pgSize) / pgSize * pgSize := by
            simp only [ustackTop, userTop, pgSize]
            omega
          have small : (ustackTop - i * pgSize) / pgSize < nPages := by
            simp only [ustackTop, userTop, pgSize, nPages]
            omega
          obtain ⟨imageA, given⟩ := given_image mem memA pgdir pgdirA foreign outside _ stackPerm page image small allocated
          rw [place] at allocated
          obtain ⟨adds, _⟩ := round_adds mem memA pgdir pgdirA foreign outside image ((ustackTop - i * pgSize) / pgSize) page stackPerm
            ((ustackTop - i * pgSize) / pgSize * pgSize) 0 zeroBytes small (empty i (by simp)) allocated (Nat.le_refl _) (by omega)
          rw [memcpy_none] at adds
          have addsA := adds_widen _ _ _ _ _ _ stackFirst ustackPage adds (by
            simp only [stackFirst, ustackSize, ustackPage, ustackTop, userTop, pgSize] at high ⊢
            omega) (by
            simp only [stackFirst, ustackSize, ustackPage, ustackTop, userTop, pgSize]
            omega)
          obtain ⟨fresh, onceR⟩ := List.nodup_cons.mp once
          refine adds_trans _ _ _ _ _ _ _ _ addsA (ih memA pgdirA imageA onceR (fun j member => inStack j (by simp [member])) (fun j member => ?_) ran)
          have differ : (ustackTop - j * pgSize) / pgSize ≠ (ustackTop - i * pgSize) / pgSize := by
            intro same
            obtain ⟨low', high'⟩ := inStack j (by simp [member])
            have equal : j = i := by
              simp only [ustackTop, userTop, pgSize, ustackPage] at same high high'
              omega
            exact fresh (equal ▸ member)
          rw [given.entry _ (by simp only [ustackTop, userTop, pgSize, nPages]; omega), if_neg differ]
          exact empty j (by simp [member])

-- The arguments change nothing but the bytes behind their block.
theorem memcpy_user_frame (pgdir : Pgdir) (len : Nat) (mem mem' : Mem) (va : Nat) (src : Bytes) (ran : memcpyUser mem pgdir va src len = .ok mem') :
    ∀ addr, (∀ vb, va ≤ vb → vb < va + len → physAt pgdir vb ≠ some addr) → mem'.phys addr = mem.phys addr := by
  induction len generalizing mem va src with
  | zero =>
      intro addr _
      rw [← Except.ok.inj ran]
  | succ len ih =>
      intro addr away
      rw [memcpyUser] at ran
      obtain ⟨mem1, stored, ran⟩ := bind_ok ran
      rw [ih mem1 (va + 1) (src.from 1) ran addr fun vb lower upper => away vb (by omega) (by omega)]
      have here := away va (Nat.le_refl _) (by omega)
      rw [storeUser] at stored
      cases entry : pgdir.entry (va / pgSize) with
      | none => simp [entry] at stored
      | some pte =>
          simp only [entry] at stored
          by_cases flag : pte.flags &&& pteW ≠ 0
          · rw [if_pos flag] at stored
            rw [← Except.ok.inj stored]
            simp only [storeByte, entry]
            have differs : addr ≠ pte.ppn * pgSize + va % pgSize := by
              intro equal
              exact here (by rw [physAt, entry, equal]; rfl)
            exact Function.update_of_ne differs _ _
          · rw [if_neg flag] at stored
            cases stored

theorem push_args_frame (pgdir : Pgdir) (top : Nat) (small : top < 2 ^ 64) (args : List (List UInt8)) (mem mem' : Mem) (sp : Nat) (uargv : List Nat)
    (fits : argsSize args ≤ top) (ran : pushArgs mem pgdir top args = .ok (mem', sp, uargv)) :
    ∀ addr, (∀ vb, top - argsSize args ≤ vb → vb < top → physAt pgdir vb ≠ some addr) → mem'.phys addr = mem.phys addr := by
  induction args generalizing mem' sp uargv with
  | nil =>
      intro addr _
      simp only [pushArgs, Except.ok.injEq, Prod.mk.injEq] at ran
      rw [ran.1]
  | cons arg rest ih =>
      intro addr away
      rw [args_size_cons] at fits away
      rw [pushArgs] at ran
      obtain ⟨⟨mem1, sp1, uargv1⟩, pushed, ran⟩ := bind_ok ran
      obtain ⟨mem2, copied, ran⟩ := bind_ok ran
      simp only [pure_ok, Except.ok.injEq, Prod.mk.injEq] at ran
      have before := push_args_stop mem mem1 pgdir top sp1 rest uargv1 small (by omega) pushed
      have place : sub64 sp1 (arg.length + 1) = top - (arg.length + 1 + argsSize rest) := by
        rw [before, sub64_small _ _ (by omega) (by omega)]
        omega
      rw [place] at copied
      rw [← ran.1, memcpy_user_frame pgdir _ mem1 mem2 _ _ copied addr fun vb lower upper => away vb lower (by omega)]
      exact ih mem1 sp1 uargv1 (by omega) pushed addr fun vb lower upper => away vb (by omega) upper

theorem setup_args_frame (pgdir : Pgdir) (kargv : List (List UInt8)) (mem mem' : Mem) (sp : Nat) (fits : blockSize kargv ≤ ustackTop)
    (ran : setupArgs mem pgdir kargv = .ok (mem', sp)) :
    ∀ addr, (∀ vb, ustackTop - blockSize kargv ≤ vb → vb < ustackTop → physAt pgdir vb ≠ some addr) → mem'.phys addr = mem.phys addr := by
  intro addr away
  rw [setupArgs] at ran
  obtain ⟨⟨mem1, sp1, uargv⟩, pushed, ran⟩ := bind_ok ran
  obtain ⟨mem2, copied, ran⟩ := bind_ok ran
  simp only [pure_ok, Except.ok.injEq, Prod.mk.injEq] at ran
  have sizes : argsSize kargv + sizeofPtr * kargv.length ≤ blockSize kargv ∧ argsSize kargv ≤ ustackTop := by
    simp only [blockSize, roundUp, roundDown, sizeofPtr, ustackTop, userTop] at fits ⊢
    omega
  have before := push_args_stop mem mem1 pgdir ustackTop sp1 kargv uargv (by decide) sizes.2 pushed
  have place : sub64 (roundDown sp1 sizeofPtr) (sizeofPtr * kargv.length) = ustackTop - blockSize kargv := by
    rw [before]
    simp only [blockSize, roundUp, roundDown, sizeofPtr, ustackTop, userTop] at fits ⊢
    rw [sub64_small _ _ (by omega) (by omega)]
    omega
  rw [place] at copied
  rw [← ran.1, memcpy_user_frame pgdir _ mem1 mem2 _ _ copied addr fun vb lower upper => away vb lower (by omega)]
  exact push_args_frame pgdir ustackTop (by decide) kargv mem mem1 sp1 uargv sizes.2 pushed addr fun vb lower upper => away vb (by omega) upper

-- A load that succeeds has built the image and put the arguments there.
theorem load_icode_loaded (fails : Failures) (mem : Mem) (satp : Nat) (file : ElfFile) (kargv : List (List UInt8)) (outcome : Outcome) (loaded : Loaded)
    (ran : loadIcode fails mem satp file kargv = .ok outcome) (current : outcome.current = some loaded) :
    ∃ memS sp, Builds fails mem file memS loaded.mm ∧ setupArgs memS loaded.mm.pgdir kargv = .ok (outcome.mem, sp) := by
  cases works : fails.mmStruct with
  | true =>
      rw [loadIcode, works] at ran
      rw [← Except.ok.inj ran] at current
      cases current
  | false =>
      cases created : mmCreate mem with
      | none =>
          rw [loadIcode, works, created] at ran
          rw [← Except.ok.inj ran] at current
          cases current
      | some pair =>
          obtain ⟨mm0, mem0⟩ := pair
          have gaveUp : ∀ ret mem mm mmCount satp made, badCleanupMmap ret mem mm mmCount satp made ≠ .ok outcome := by
            intro ret mem mm mmCount satp made cleaned
            rw [badCleanupMmap] at cleaned
            obtain ⟨_, cleaned⟩ := check_bind_ok cleaned
            obtain ⟨_, _, cleaned⟩ := bind_ok cleaned
            obtain ⟨_, _, cleaned⟩ := bind_ok cleaned
            rw [← Except.ok.inj cleaned] at current
            cases current
          rw [load_icode_program fails mem mem0 mm0 satp file kargv works created] at ran
          obtain ⟨⟨ret, memS, mmS, made⟩, program, ran⟩ := bind_ok ran
          by_cases bad : ret ≠ 0
          · simp only [if_pos bad] at ran
            exact absurd ran (gaveUp _ _ _ _ _ _)
          · simp only [if_neg bad] at ran
            obtain rfl := not_not.mp bad
            cases uargv : fails.uargv with
            | true =>
                simp only [uargv, if_true] at ran
                exact absurd ran (gaveUp _ _ _ _ _ _)
            | false =>
                simp only [uargv, Bool.false_eq_true, if_false] at ran
                obtain ⟨⟨memF, sp⟩, args, ran⟩ := bind_ok ran
                obtain rfl := Except.ok.inj ran
                obtain rfl := Option.some.inj current
                exact ⟨memS, sp, program_builds fails mem mem0 memS mm0 mmS file made works uargv created program, args⟩

def stackVma : Vma := ⟨ustackTop - ustackSize, ustackTop, vmRead ||| vmWrite ||| vmStack⟩

theorem stack_vma_page (vpn : Nat) : stackVma.Has (vpn * pgSize) ↔ stackFirst ≤ vpn ∧ vpn < stackFirst + ustackPage := by
  simp only [Vma.Has, stackVma, stackFirst, ustackTop, ustackSize, ustackPage, userTop, pgSize]
  omega

theorem created_placed (file : ElfFile) (mem mem0 : Mem) (mm0 : Mm) (clean : ∀ page, mem.free page = true → mem.ref page = 0)
    (created : mmCreate mem = some (mm0, mem0)) :
    Placed file mem (fun page => mem0.free page = false ∧ page ≠ mm0.pgdir.page) (fun _ => 0) [] mem0 mm0 := by
  have image := fresh_image mem mem0 mm0 clean created
  obtain ⟨⟨root, memA⟩, got, same⟩ := Option.map_eq_some_iff.mp created
  simp only [Prod.mk.injEq] at same
  obtain ⟨rfl, rfl⟩ := same
  obtain ⟨_, rfl⟩ := alloc_page_spec mem memA root got
  refine ⟨image, ⟨List.Pairwise.nil, fun _ member => (nomatch member)⟩, fun _ held => (nomatch held), fun vma => ?_, List.Pairwise.nil, fun vpn _ => ?_,
    fun _ member => (nomatch member), fun _ _ => rfl⟩
  · simp
  · simp [Pgdir.entry, Pgdir.lookup]

section Plain

variable (fails : Failures) (mem memS : Mem) (file : ElfFile) (mmS : Mm) (clean : ∀ page, mem.free page = true → mem.ref page = 0)
  (builds : Builds fails mem file memS mmS) (user : ∀ ph ∈ segments file, ph.pVa + ph.pMemsz ≤ userTop) (plain : ∀ ph ∈ segments file, ph.Plain)

include clean builds user plain

-- The image before the arguments.
theorem plain_built : (∃ foreign outside, Image memS mmS.pgdir foreign outside) ∧
    (∀ ph ∈ segments file, SegmentShown memS mmS.pgdir file ph) ∧
    (∀ vpn, vpn < nPages → (mmS.pgdir.entry vpn ≠ none ↔ (∃ ph ∈ segments file, 0 < ph.pMemsz ∧ ph.InArea vpn) ∨ StackSlot vpn)) ∧
    (∀ addr, ¬ Own mmS.pgdir (addr / pgSize) → memS.phys addr = mem.phys addr) ∧
    (segments file).Pairwise (fun ph other => Vma.Apart ph.vma other.vma) ∧ ∀ ph ∈ segments file, ph.pFilesz ≤ ph.pMemsz ∧ Vma.Apart ph.vma stackVma := by
  obtain ⟨mm0, mem0, mem1, mm1, made, stack, created, _, loaded, set⟩ := builds.steps
  have all := load_segments_all fails file _ _ mem0 mem1 mm0 mm1 made loaded
  obtain ⟨placed, bounds⟩ := placed_all file mem _ _ fails _ mem0 mem1 mm0 mm1 all [] (created_placed file mem mem0 mm0 clean created)
    (fun _ member => (nomatch member)) user plain
  obtain ⟨mm2, pgdir', mapped, pages, rfl⟩ := setup_stack_parts fails mem1 memS mm1 mmS stack set
  obtain ⟨_, _, apart⟩ := mm_map_areas mm1 mm2 _ _ _ placed.areas placed.cached mapped
  rw [(mm_map_shape mm1 mm2 _ _ _ mapped).1] at pages
  have apartStack : ∀ ph ∈ segments file, Vma.Apart ph.vma stackVma := fun ph member => apart ph.vma ((placed.listed _).mpr ⟨ph, member, rfl⟩)
  have away : ∀ ph ∈ segments file, ∀ vpn, ph.InArea vpn → ¬ (stackFirst ≤ vpn ∧ vpn < stackFirst + ustackPage) := by
    intro ph member vpn inside inStack
    exact apart_pages _ _ (apartStack ph member) (vpn * pgSize) ((vma_has_page ph (user ph member) vpn).mpr inside) ((stack_vma_page vpn).mpr inStack)
  have empty : ∀ vpn, vpn < nPages → stackFirst ≤ vpn ∧ vpn < stackFirst + ustackPage → mm1.pgdir.entry vpn = none := by
    intro vpn bound inStack
    by_contra mapped'
    obtain ⟨ph, member, _, inside⟩ := (placed.pages vpn bound).mp mapped'
    exact away ph member vpn inside inStack
  have adds := stack_pages_adds _ _ [1, 2, 3, 4] mem1 memS mm1.pgdir pgdir' placed.image (by decide) (by decide) (fun i member => by
    have range : 1 ≤ i ∧ i ≤ 4 := by
      simp only [List.mem_cons, List.not_mem_nil, or_false] at member
      omega
    refine empty _ ?_ ?_
    · simp only [ustackTop, userTop, pgSize, nPages]
      omega
    · simp only [stackFirst, ustackTop, ustackSize, ustackPage, userTop, pgSize]
      omega) pages
  obtain ⟨image, entries⟩ := stack_pages_image _ _ [1, 2, 3, 4] mem1 memS mm1.pgdir pgdir' placed.image pages
  have slots : ∀ vpn, (∃ i ∈ [1, 2, 3, 4], vpn = (ustackTop - i * pgSize) / pgSize) ↔ StackSlot vpn := by
    intro vpn
    simp only [StackSlot, List.mem_cons, List.not_mem_nil, or_false, exists_eq_or_imp, exists_eq_left, ustackTop, userTop, pgSize]
    omega
  refine ⟨⟨_, _, image⟩, fun ph member => ?_, fun vpn bound => ?_, fun addr outer => ?_, placed.apart, fun ph member => ⟨(bounds ph member).1, apartStack ph member⟩⟩
  · refine shown_kept file mem1 memS _ _ ph (bounds ph member).1 (fun va lower upper => ?_) (placed.shown ph member)
    have outside := away ph member _ (area_of_byte ph va lower upper)
    have high := user ph member
    exact adds.kept va (by simp only [userTop, pgSize, nPages] at *; omega) (by omega)
  · have now := entries vpn bound
    by_cases slot : StackSlot vpn
    · rw [if_pos ((slots vpn).mpr slot)] at now
      obtain ⟨page, entry⟩ := now
      exact iff_of_true (by simp only [entry]; simp) (.inr slot)
    · rw [if_neg fun found => slot ((slots vpn).mp found)] at now
      simp only [now, placed.pages vpn bound, slot, or_false]
      rfl
  · rw [adds.outside addr outer]
    exact placed.clean addr fun owned => outer (adds.own _ owned)

-- The image that a load leaves behind, with the arguments on the stack.
theorem plain_loaded (kargv : List (List UInt8)) (accepted : Accepted kargv) (mem' : Mem) (sp : Nat)
    (args : setupArgs memS mmS.pgdir kargv = .ok (mem', sp)) :
    (∀ ph ∈ segments file, SegmentShown mem' mmS.pgdir file ph) ∧ ∀ addr, ¬ Own mmS.pgdir (addr / pgSize) → mem'.phys addr = mem.phys addr := by
  obtain ⟨⟨foreign, outside, image⟩, shown, _, kept, _, apart⟩ := plain_built fails mem memS file mmS clean builds user plain
  have frame := setup_args_frame mmS.pgdir kargv memS mem' sp (accepted_small kargv accepted) args
  have size := args_size_le kargv accepted.len
  have num := accepted.num
  have block : blockSize kargv ≤ ustackSize := by
    simp only [blockSize, roundUp, roundDown, sizeofPtr, execMaxArgLen, execMaxArgNum, ustackSize, ustackPage, pgSize] at *
    omega
  have top : ustackSize ≤ ustackTop := by decide
  refine ⟨fun ph member => ?_, fun addr outer => ?_⟩
  · obtain ⟨sizes, away⟩ := apart ph member
    refine shown_kept file memS mem' _ _ ph sizes (fun va lower upper => ?_) (shown ph member)
    have high := user ph member
    have low : va / pgSize < nPages := by
      simp only [userTop, pgSize, nPages] at *
      omega
    have inside := (vma_has_page ph high (va / pgSize)).mpr (area_of_byte ph va lower upper)
    have below : va < ustackTop - ustackSize := by
      have beside := apart_pages _ _ away (va / pgSize * pgSize) inside
      rw [stack_vma_page] at beside
      simp only [stackFirst, ustackTop, ustackSize, ustackPage, userTop, pgSize] at beside high ⊢
      omega
    rw [user_byte_at, user_byte_at]
    cases place : physAt mmS.pgdir va with
    | none => rfl
    | some addr =>
        simp only [Option.map_some, Option.some.injEq]
        refine frame addr fun vb lowerB upperB there => ?_
        have same := phys_at_apart memS mmS.pgdir foreign outside image va vb addr low (by
          simp only [ustackTop, userTop, pgSize, nPages] at *
          omega) place there
        omega
  · rw [frame addr fun vb lower upper here => ?_]
    · exact kept addr outer
    · obtain ⟨pte, entry, place⟩ := Option.map_eq_some_iff.mp here
      refine outer (.inr ⟨vb / pgSize, pte, ?_, entry, ?_⟩)
      · simp only [ustackTop, userTop, pgSize, nPages] at *
        omega
      · simp only [pgSize] at place ⊢
        omega

end Plain

theorem good_loads_image (file : ElfFile) (user : ∀ ph ∈ segments file, ph.pVa + ph.pMemsz ≤ userTop)
    (good : ∀ ph ∈ segments file, 0 < ph.pMemsz ∧ ph.Plain) : LoadsImage file := by
  intro fails mem satp kargv outcome loaded clean accepted ran _ current
  obtain ⟨memS, sp, builds, args⟩ := load_icode_loaded fails mem satp file kargv outcome loaded ran current
  have plain : ∀ ph ∈ segments file, ph.Plain := fun ph member => (good ph member).2
  obtain ⟨_, _, pages, _⟩ := plain_built fails mem memS file loaded.mm clean builds user plain
  obtain ⟨shown, outside⟩ := plain_loaded fails mem memS file loaded.mm clean builds user plain kargv accepted outcome.mem sp args
  refine ⟨shown, fun vpn bound => (pages vpn bound).trans (or_congr_left ?_), outside⟩
  constructor
  · intro found
    obtain ⟨ph, member, _, inside⟩ := found
    exact ⟨ph, member, inside⟩
  · intro found
    obtain ⟨ph, member, inside⟩ := found
    exact ⟨ph, member, (good ph member).1, inside⟩

end Ucore.Exec
