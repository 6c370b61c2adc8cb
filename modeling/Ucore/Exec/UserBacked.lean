import Ucore.Exec.ImageExact

set_option autoImplicit false

namespace Ucore.Exec

open Ucore.Lib Ucore.Vmm

-- The kernel reads or writes the byte for the program without a fault.
def Serves (pgdir : Pgdir) (write : Bool) (va : Nat) : Prop :=
  ∃ pte, pgdir.entry (va / pgSize) = some pte ∧ pte.flags &&& pteU ≠ 0 ∧ pte.flags &&& (if write = true then pteW else pteR) ≠ 0

-- The pages that the two loops of a segment map. The last may lie behind the area:
-- where the zeros begin and end in the page that the bytes of the file end in.
def Proghdr.Spans (ph : Proghdr) (vpn : Nat) : Prop := ph.pVa / pgSize ≤ vpn ∧ vpn < ph.pVa / pgSize + segmentPages ph

instance (ph : Proghdr) (vpn : Nat) : Decidable (ph.Spans vpn) :=
  inferInstanceAs (Decidable (ph.pVa / pgSize ≤ vpn ∧ vpn < ph.pVa / pgSize + segmentPages ph))

-- The last segment that maps the page; it takes the place of those before.
def mapper (list : List Proghdr) (vpn : Nat) : Option Proghdr := list.reverse.find? fun ph => decide (ph.Spans vpn)

theorem mapper_cons (ph : Proghdr) (rest : List Proghdr) (vpn : Nat) :
    mapper (ph :: rest) vpn = (mapper rest vpn).or (if ph.Spans vpn then some ph else none) := by
  rw [mapper, List.reverse_cons, List.find?_append]
  by_cases here : ph.Spans vpn
  · rw [if_pos here, List.find?_singleton, if_pos (decide_eq_true here)]
    rfl
  · rw [if_neg here, List.find?_singleton, if_neg (by simpa using here)]
    rfl

-- The entries that the loads leave: of a page that some segment maps, and of the
-- others.
structure MappedBy (list : List Proghdr) (before after : Pgdir) (vpn : Nat) : Prop where
  found : ∀ ph, mapper list vpn = some ph → ∃ page, after.entry vpn = some (pteCreate page (pteV ||| pagePerm ph.vmFlags))
  missed : mapper list vpn = none → after.entry vpn = before.entry vpn

theorem loads_mapped (foreign : Nat → Prop) (outside : Nat → Nat) (fails : Failures) (file : ElfFile) (list : List Proghdr) (mem mem' : Mem) (mm mm' : Mm)
    (loads : LoadsAll fails file list mem mm mem' mm') (image : Image mem mm.pgdir foreign outside) (vpn : Nat) (bound : vpn < nPages) :
    MappedBy list mm.pgdir mm'.pgdir vpn := by
  induction loads with
  | none _ _ => exact ⟨fun _ found => (by cases found), fun _ => rfl⟩
  | next ph rest mem mem1 mem' mm mm1 mm' made first _ ih =>
      obtain ⟨image1, maps⟩ := load_segment_pages foreign outside fails file mem mem1 mm mm1 ph made image first
      have later := ih image1
      cases found : mapper rest vpn with
      | some other =>
          have whole : mapper (ph :: rest) vpn = some other := by rw [mapper_cons, found, Option.some_or]
          refine ⟨fun last same => ?_, fun missed => ?_⟩
          · obtain rfl := Option.some.inj (whole.symm.trans same)
            exact later.found _ found
          · rw [whole] at missed
            cases missed
      | none =>
          have kept := later.missed found
          by_cases here : ph.Spans vpn
          · have whole : mapper (ph :: rest) vpn = some ph := by rw [mapper_cons, found, Option.none_or, if_pos here]
            refine ⟨fun last same => ?_, fun missed => ?_⟩
            · obtain rfl := Option.some.inj (whole.symm.trans same)
              rw [kept]
              exact maps.inside vpn bound here.1 here.2
            · rw [whole] at missed
              cases missed
          · have whole : mapper (ph :: rest) vpn = none := by rw [mapper_cons, found, Option.none_or, if_neg here]
            refine ⟨fun last same => ?_, fun _ => ?_⟩
            · rw [whole] at same
              cases same
            · rw [kept]
              refine maps.outside vpn bound ?_
              by_contra between
              exact here (by simp only [Proghdr.Spans]; omega)

theorem loads_areas (fails : Failures) (file : ElfFile) (list : List Proghdr) (mem mem' : Mem) (mm mm' : Mm)
    (loads : LoadsAll fails file list mem mm mem' mm') (areas : Areas mm.mmapList) (cached : mm.Cached) :
    Areas mm'.mmapList ∧ mm'.Cached ∧ ∀ vma, vma ∈ mm'.mmapList ↔ vma ∈ mm.mmapList ∨ ∃ ph ∈ list, vma = ph.vma := by
  induction loads with
  | none _ _ => exact ⟨areas, cached, fun vma => by simp⟩
  | next ph rest mem mem1 mem' mm mm1 mm' made first _ ih =>
      obtain ⟨_, mmA, _, _, _, _, _, mapped, _, _, shape⟩ := load_segment_parts fails file mem mem1 mm mm1 ph made first
      obtain ⟨areasA, cachedA, _⟩ := mm_map_areas mm mmA _ _ _ areas cached mapped
      obtain ⟨_, members⟩ := mm_map_shape mm mmA _ _ _ mapped
      obtain ⟨areas', cached', listed⟩ := ih (by rw [shape]; exact areasA) (by rw [shape]; exact cachedA)
      refine ⟨areas', cached', fun vma => ?_⟩
      have first' : vma ∈ mm1.mmapList ↔ vma = ph.vma ∨ vma ∈ mm.mmapList := by
        rw [shape]
        exact members vma
      rw [listed vma, first', or_comm (a := vma = ph.vma), or_assoc]
      simp only [List.mem_cons, exists_eq_or_imp]

-- What a segment lets the kernel do at its pages: a page that may be written may
-- be read.
def Proghdr.Grants (ph : Proghdr) (write : Bool) : Prop := ph.vmFlags &&& (if write = true then vmWrite else vmRead ||| vmWrite) ≠ 0

theorem granted_entry (ph : Proghdr) (page : Nat) (write : Bool) :
    (pteCreate page (pteV ||| pagePerm ph.vmFlags)).flags &&& pteU ≠ 0 ∧
      ((pteCreate page (pteV ||| pagePerm ph.vmFlags)).flags &&& (if write = true then pteW else pteR) ≠ 0 ↔ ph.Grants write) := by
  simp only [Proghdr.Grants, Proghdr.vmFlags, pteCreate]
  by_cases reads : ph.pFlags &&& elfPfR ≠ 0 <;> by_cases writes : ph.pFlags &&& elfPfW ≠ 0 <;> by_cases runs : ph.pFlags &&& elfPfX ≠ 0 <;>
    simp only [reads, writes, runs, if_true, if_false, ne_eq, not_false_eq_true] <;> cases write <;> decide

theorem stack_entry (page : Nat) (write : Bool) : (pteCreate page (pteV ||| stackPerm)).flags &&& pteU ≠ 0 ∧
    (pteCreate page (pteV ||| stackPerm)).flags &&& (if write = true then pteW else pteR) ≠ 0 := by
  simp only [pteCreate]
  cases write <;> decide

-- The pages of the stack's area that setup leaves out.
def StackGap (vpn : Nat) : Prop := stackFirst ≤ vpn ∧ vpn < ustackTop / pgSize - 4

-- No segment is empty, no page that one maps is of the area of another or of the
-- stack, and the memset of no segment leaves the page it clears the rest of: below
-- that page it would meet whatever the kernel keeps there, a page table too.
structure Separate (file : ElfFile) : Prop where
  filled : ∀ ph ∈ segments file, 0 < ph.pMemsz
  user : ∀ ph ∈ segments file, ph.pFilesz ≤ ph.pMemsz ∧ ph.pVa + ph.pMemsz ≤ userTop
  apart : ∀ ph ∈ segments file, ∀ other ∈ segments file, ∀ vpn, ph.Spans vpn → other.InArea vpn → ph = other
  stack : ∀ ph ∈ segments file, ∀ vpn, ph.Spans vpn → vpn < stackFirst
  plain : ∀ ph ∈ segments file, ph.Plain

theorem area_of_vma (ph : Proghdr) (user : ph.pVa + ph.pMemsz ≤ userTop) (va : Nat) (has : ph.vma.Has va) : ph.InArea (va / pgSize) := by
  have small : ph.pVa + ph.pMemsz < 2 ^ 64 := by
    simp only [userTop] at user
    omega
  simp only [Vma.Has, Proghdr.vma, Proghdr.InArea, map_stop_small ph.pVa ph.pMemsz small, roundUp, roundDown, pgSize] at has ⊢
  omega

theorem area_spanned (ph : Proghdr) (sizes : ph.pFilesz ≤ ph.pMemsz) (user : ph.pVa + ph.pMemsz ≤ userTop) (filled : 0 < ph.pMemsz) (vpn : Nat)
    (inside : ph.InArea vpn) : ph.Spans vpn := by
  have small : ph.pVa + ph.pMemsz < 2 ^ 64 := by
    simp only [userTop] at user
    omega
  rw [Proghdr.Spans, segmentPages, bssCount, text_stop_eq ph sizes user, text_pages_eq ph sizes user, Nat.mod_eq_of_lt small]
  simp only [Proghdr.InArea, pgSize] at inside ⊢
  split <;> split <;> omega

theorem separate_mapper (file : ElfFile) (separate : Separate file) (ph : Proghdr) (member : ph ∈ segments file) (vpn : Nat) (inside : ph.InArea vpn) :
    mapper (segments file) vpn = some ph := by
  obtain ⟨sizes, user⟩ := separate.user ph member
  have spans := area_spanned ph sizes user (separate.filled ph member) vpn inside
  cases found : mapper (segments file) vpn with
  | none =>
      rw [mapper, List.find?_eq_none] at found
      exact absurd (decide_eq_true spans) (found ph (by simpa using member))
  | some other =>
      have listed : other ∈ segments file := by simpa using List.mem_of_find?_eq_some found
      have covers : other.Spans vpn := by simpa using List.find?_some found
      rw [separate.apart other listed ph member vpn covers inside]

theorem separate_unmapped (file : ElfFile) (separate : Separate file) (vpn : Nat) (high : stackFirst ≤ vpn) : mapper (segments file) vpn = none := by
  rw [mapper, List.find?_eq_none]
  intro ph member spans
  have below := separate.stack ph (by simpa using member) vpn (by simpa using spans)
  omega

theorem asked_grants (ph : Proghdr) (write : Bool) (asked : ph.vmFlags &&& askedFlag write ≠ 0) : ph.Grants write := by
  cases write with
  | true => exact asked
  | false =>
      intro refused
      have narrowed : ph.vmFlags &&& vmRead = ph.vmFlags &&& (vmRead ||| vmWrite) &&& vmRead := by
        rw [Nat.and_assoc]
        rfl
      exact asked (narrowed.trans (by rw [show ph.vmFlags &&& (vmRead ||| vmWrite) = 0 from refused, Nat.zero_and]))

-- What holds of the memory of a process from the load on: of an area, the bytes
-- with the flag asked for are served, but for those of the gap.
structure Backed (mem : Mem) (mm : Mm) : Prop where
  areas : Areas mm.mmapList
  cached : mm.Cached
  frames : ∀ vpn pte, vpn < nPages → mm.pgdir.entry vpn = some pte → mem.free pte.ppn = false
  clean : ∀ page, mem.free page = true → mem.ref page = 0
  served : ∀ vma ∈ mm.mmapList, ∀ va, vma.Has va → ∀ write, vma.vmFlags &&& askedFlag write ≠ 0 →
    (Serves mm.pgdir write va ↔ ¬ StackGap (va / pgSize))

theorem Backed.ordered (mem : Mem) (mm : Mm) (backed : Backed mem mm) : Ordered mm.mmapList :=
  ⟨backed.areas.apart, fun vma member => (backed.areas.fits vma member).2.2.2.1⟩

section Built

variable (file : ElfFile) (separate : Separate file) (fails : Failures) (mem memS : Mem) (mmS : Mm)
  (clean : ∀ page, mem.free page = true → mem.ref page = 0) (builds : Builds fails mem file memS mmS)

include separate clean builds

theorem built_backed : Backed memS mmS := by
  obtain ⟨foreign, outside, mem0, mm0, mem1, mm1, stack, created, image0, all, image1, set, image⟩ := builds_parts fails mem memS file mmS clean builds
  obtain ⟨⟨root, memA⟩, _, same⟩ := Option.map_eq_some_iff.mp created
  obtain ⟨rfl, rfl⟩ := Prod.mk.inj same
  obtain ⟨areas1, cached1, listed1⟩ := loads_areas fails file (segments file) _ mem1 _ mm1 all ⟨List.Pairwise.nil, fun _ member => (nomatch member)⟩
    (fun _ held => (nomatch held))
  obtain ⟨mm2, pgdir', mapped, pages, rfl⟩ := setup_stack_parts fails mem1 memS mm1 mmS stack set
  obtain ⟨areas2, cached2, _⟩ := mm_map_areas mm1 mm2 _ _ _ areas1 cached1 mapped
  obtain ⟨root2, listed2⟩ := mm_map_shape mm1 mm2 _ _ _ mapped
  rw [root2] at pages
  have entries := (stack_pages_image foreign outside _ mem1 memS mm1.pgdir pgdir' image1 pages).2
  refine ⟨areas2, cached2, fun vpn pte bound entry => ?_, fun page unused => ?_, fun vma member va has write asked => ?_⟩
  · exact (image.space.mapped pte.ppn ((count_pos pgdir' pte.ppn).mpr ⟨vpn, bound, by simp [Pgdir.Maps, entry]⟩)).1
  · exact (free_unused memS pgdir' foreign outside image.space page unused).2.2.2.2
  · have user : va < userTop := Nat.lt_of_lt_of_le has.2 (areas2.fits vma member).2.2.2.2
    have bound : va / pgSize < nPages := by
      simp only [userTop, nPages, pgSize] at user ⊢
      omega
    have now := entries (va / pgSize) bound
    have before := loads_mapped foreign outside fails file (segments file) _ mem1 _ mm1 all image0 (va / pgSize) bound
    have slots : (∃ i ∈ [1, 2, 3, 4], va / pgSize = (ustackTop - i * pgSize) / pgSize) ↔ StackSlot (va / pgSize) := by
      simp only [List.mem_cons, List.not_mem_nil, or_false, exists_eq_or_imp, exists_eq_left, StackSlot, ustackTop, userTop, pgSize]
      omega
    have members := (listed2 vma).mp member
    rw [listed1] at members
    by_cases slot : StackSlot (va / pgSize)
    · rw [if_pos (slots.mpr slot)] at now
      obtain ⟨page, entry⟩ := now
      obtain ⟨user', granted⟩ := stack_entry page write
      refine iff_of_true ⟨_, entry, user', granted⟩ fun gap => ?_
      have high := gap.2
      have low := slot.1
      omega
    · rw [if_neg fun listed => slot (slots.mp listed)] at now
      cases members with
      | inl isStack =>
          have high : stackFirst ≤ va / pgSize ∧ va / pgSize < ustackTop / pgSize := by
            rw [isStack] at has
            simp only [Vma.Has, roundDown, mapStop, roundUp, stackFirst, ustackTop, ustackSize, ustackPage, userTop, pgSize] at has ⊢
            omega
          have gap : StackGap (va / pgSize) := ⟨high.1, by
            by_contra above
            exact slot ⟨by omega, high.2⟩⟩
          refine iff_of_false (fun serves => ?_) (not_not.mpr gap)
          obtain ⟨pte, entry, _⟩ := serves
          rw [now, before.missed (separate_unmapped file separate _ high.1)] at entry
          simp [Pgdir.entry, Pgdir.lookup] at entry
      | inr old =>
          cases old with
          | inl none' => exact absurd none' (by simp)
          | inr segment =>
              obtain ⟨ph, inFile, same⟩ := segment
              rw [same] at has asked
              have inside := area_of_vma ph (separate.user ph inFile).2 va has
              have spans := area_spanned ph (separate.user ph inFile).1 (separate.user ph inFile).2 (separate.filled ph inFile) _ inside
              obtain ⟨page, entry⟩ := before.found ph (separate_mapper file separate ph inFile _ inside)
              obtain ⟨user', granted⟩ := granted_entry ph page write
              refine iff_of_true ⟨_, now.trans entry, user', granted.mpr (asked_grants ph write asked)⟩ fun gap => ?_
              have below := separate.stack ph inFile _ spans
              have low := gap.1
              omega

end Built

-- dup_mmap copies the entries that are there, with their permissions.
theorem copied_serves (page : Nat) (source target : Pgdir) (va : Nat) (write : Bool) (pte : Pte) (entry : source.entry (va / pgSize) = some pte)
    (copied : target.entry (va / pgSize) = some (pteCreate page (pteV ||| (pte.flags &&& pteUser)))) :
    Serves target write va ↔ Serves source write va := by
  have perms := copied_perms page pte.flags
  have part : ∀ flag, userPerm &&& flag = flag → (pteCreate page (pteV ||| (pte.flags &&& pteUser))).flags &&& flag = pte.flags &&& flag := by
    intro flag within
    rw [← within, ← Nat.and_assoc, perms, Nat.and_assoc]
  have user := part pteU (by decide)
  have access := part (if write = true then pteW else pteR) (by cases write <;> decide)
  constructor
  · intro serves
    obtain ⟨new, here, isUser, allows⟩ := serves
    obtain rfl := Option.some.inj (copied.symm.trans here)
    exact ⟨pte, entry, user ▸ isUser, access ▸ allows⟩
  · intro serves
    obtain ⟨old, here, isUser, allows⟩ := serves
    obtain rfl := Option.some.inj (entry.symm.trans here)
    exact ⟨_, copied, user.symm ▸ isUser, access.symm ▸ allows⟩

theorem dup_loop_cached (vmas : List Vma) (mem mem' : Mem) (target target' : Mm) (source : Pgdir)
    (ran : dupMmapLoop mem target source vmas = .ok (0, mem', target')) : target'.mmapCache = target.mmapCache := by
  induction vmas generalizing mem target with
  | nil =>
      simp only [dupMmapLoop, Except.ok.injEq, Prod.mk.injEq] at ran
      obtain ⟨_, _, rfl⟩ := ran
      rfl
  | cons vma rest ih =>
      rw [dupMmapLoop] at ran
      obtain ⟨targetI, inserted, ran⟩ := bind_ok ran
      obtain ⟨⟨ret, memC, pgdirC⟩, _, ran⟩ := bind_ok ran
      by_cases failed : ret ≠ 0
      · simp only [if_pos failed, pure_ok, Except.ok.injEq, Prod.mk.injEq] at ran
        exact absurd ran.1 (by decide)
      · simp only [if_neg failed] at ran
        rw [ih memC _ ran]
        unfold insertVmaStruct at inserted
        obtain ⟨_, inserted⟩ := check_bind_ok inserted
        obtain ⟨_, _, inserted⟩ := bind_ok inserted
        obtain ⟨_, _, inserted⟩ := bind_ok inserted
        obtain rfl := Except.ok.inj inserted
        rfl

theorem copy_backed (mem mem0 mem' : Mem) (parent fresh child : Mm) (backed : Backed mem parent) (made : mmCreate mem = some (fresh, mem0))
    (copied : dupMmap mem0 fresh parent = .ok (0, mem', child)) : Backed mem' child := by
  have image0 := fresh_image mem mem0 fresh backed.clean made
  obtain ⟨⟨root, memA⟩, got, same⟩ := Option.map_eq_some_iff.mp made
  obtain ⟨rfl, rfl⟩ := Prod.mk.inj same
  obtain ⟨_, rfl⟩ := alloc_page_spec mem memA root got
  have frames : ∀ vpn pte, vpn < nPages → parent.pgdir.entry vpn = some pte → Function.update mem.free root false pte.ppn = false := by
    intro vpn pte bound entry
    by_cases here : pte.ppn = root
    · rw [here, Function.update_self]
    · rw [Function.update_of_ne here]
      exact backed.frames vpn pte bound entry
  have start : Copying { mem with free := Function.update mem.free root false } { mem with free := Function.update mem.free root false }
      ⟨root, fun _ => none⟩ parent.pgdir fun vpn => Mm.HasArea ⟨[], none, ⟨root, fun _ => none⟩, 0⟩ (vpn * pgSize) :=
    ⟨fun page used => ⟨used, rfl⟩, fun _ _ => rfl, fun vpn pte _ area _ => (by simp [Mm.HasArea] at area), fun vpn _ _ => rfl⟩
  obtain ⟨space, list, copying⟩ := dup_loop_copies _ parent.pgdir frames _ _ parent.mmapList backed.areas parent.mmapList.reverse _ mem'
    ⟨[], none, ⟨root, fun _ => none⟩, 0⟩ child image0.space (by simp) start copied
  have cache := dup_loop_cached _ _ mem' _ child parent.pgdir copied
  refine ⟨list ▸ backed.areas, fun vma held => ?_, fun vpn pte bound entry => ?_, fun page unused => ?_, fun vma member va has write asked => ?_⟩
  · rw [cache] at held
    cases held
  · exact (space.mapped pte.ppn ((count_pos child.pgdir pte.ppn).mpr ⟨vpn, bound, by simp [Pgdir.Maps, entry]⟩)).1
  · exact (free_unused mem' child.pgdir _ _ space page unused).2.2.2.2
  · rw [list] at member
    have fits := backed.areas.fits vma member
    have user : va < userTop := Nat.lt_of_lt_of_le has.2 fits.2.2.2.2
    have bound : va / pgSize < nPages := by
      simp only [userTop, nPages, pgSize] at user ⊢
      omega
    have inArea : child.HasArea (va / pgSize * pgSize) := by
      refine ⟨vma, list ▸ member, ?_⟩
      have first := fits.1
      have last := fits.2.1
      simp only [Vma.Has, pgSize] at has first last ⊢
      omega
    rw [← backed.served vma member va has write asked]
    cases entry : parent.pgdir.entry (va / pgSize) with
    | none =>
        refine iff_of_false (fun serves => ?_) fun serves => ?_
        · obtain ⟨pte, here, _⟩ := serves
          rw [copying.absent _ bound (.inr entry)] at here
          cases here
        · obtain ⟨pte, here, _⟩ := serves
          rw [entry] at here
          cases here
    | some pte =>
        obtain ⟨page, new⟩ := copying.copied _ pte bound inArea entry
        exact copied_serves page parent.pgdir child.pgdir va write pte entry new.entry

-- The memory of a process that load_icode has built from the file, or dup_mmap has
-- copied from such a one, at any later time: the bytes of memory and the pages
-- that are not its own may have changed, and user_mem_check may have moved the cache.
inductive Descends (file : ElfFile) : Mem → Mm → Prop where
  | loaded (fails : Failures) (mem memS : Mem) (mm : Mm) (clean : ∀ page, mem.free page = true → mem.ref page = 0)
      (builds : Builds fails mem file memS mm) : Descends file memS mm
  | later (mem mem' : Mem) (mm : Mm) (before : Descends file mem mm) (clean : ∀ page, mem'.free page = true → mem'.ref page = 0)
      (kept : ∀ vpn pte, vpn < nPages → mm.pgdir.entry vpn = some pte → mem'.free pte.ppn = false) : Descends file mem' mm
  | checked (mem : Mem) (mm mm' : Mm) (before : Descends file mem mm) (addr len : UInt64) (write allowed : Bool)
      (ran : userMemCheck (some mm) addr len write = .ok (allowed, some mm')) : Descends file mem mm'
  | forked (mem mem0 mem' : Mem) (parent fresh child : Mm) (before : Descends file mem parent) (made : mmCreate mem = some (fresh, mem0))
      (copied : dupMmap mem0 fresh parent = .ok (0, mem', child)) : Descends file mem' child

theorem descends_backed (file : ElfFile) (separate : Separate file) (mem : Mem) (mm : Mm) (descends : Descends file mem mm) : Backed mem mm := by
  induction descends with
  | loaded fails mem memS mm clean builds => exact built_backed file separate fails mem memS mm clean builds
  | later mem mem' mm _ clean kept ih => exact ⟨ih.areas, ih.cached, kept, clean, ih.served⟩
  | checked mem mm mm' _ addr len write allowed ran ih =>
      obtain ⟨_, after, returns, list, cached, root, _⟩ := user_mem_check_spec mm (ih.ordered mem mm) ih.cached addr len write
      obtain rfl : after = mm' := by
        rw [ran] at returns
        exact (Option.some.inj (Prod.mk.inj (Except.ok.inj returns)).2).symm
      exact ⟨list ▸ ih.areas, cached, root ▸ ih.frames, ih.clean, by rw [list, root]; exact ih.served⟩
  | forked mem mem0 mem' parent fresh child _ made copied ih => exact copy_backed mem mem0 mem' parent fresh child ih made copied

-- A range that user_mem_check allows is served without a fault exactly when none
-- of its pages is in the part of the stack that is not mapped.
theorem user_mem_check_serves_iff (file : ElfFile) (separate : Separate file) (mem : Mem) (mm after : Mm) (descends : Descends file mem mm)
    (addr len : UInt64) (write : Bool) (allowed : userMemCheck (some mm) addr len write = .ok (true, some after)) :
    (∀ va, addr.toNat ≤ va → va < addr.toNat + len.toNat → Serves mm.pgdir write va) ↔
      ∀ va, addr.toNat ≤ va → va < addr.toNat + len.toNat → ¬ StackGap (va / pgSize) := by
  have backed := descends_backed file separate mem mm descends
  obtain ⟨answer, after', ran, _, _, _, law⟩ := user_mem_check_spec mm (backed.ordered mem mm) backed.cached addr len write
  have granted : answer = true := by
    rw [allowed] at ran
    exact (Prod.mk.inj (Except.ok.inj ran)).1.symm
  refine forall_congr' fun va => forall_congr' fun low => forall_congr' fun high => ?_
  obtain ⟨⟨vma, member, has, asked⟩, _⟩ := (law.mp granted).bytes va low high
  exact backed.served vma member va has write asked

theorem built_lists (fails : Failures) (mem memS : Mem) (file : ElfFile) (mmS : Mm) (clean : ∀ page, mem.free page = true → mem.ref page = 0)
    (builds : Builds fails mem file memS mmS) (ph : Proghdr) (member : ph ∈ segments file) : ph.vma ∈ mmS.mmapList := by
  obtain ⟨_, _, mem0, mm0, mem1, mm1, stack, created, _, all, _, set, _⟩ := builds_parts fails mem memS file mmS clean builds
  obtain ⟨⟨root, memA⟩, _, same⟩ := Option.map_eq_some_iff.mp created
  obtain ⟨rfl, rfl⟩ := Prod.mk.inj same
  obtain ⟨_, _, listed1⟩ := loads_areas fails file (segments file) _ mem1 _ mm1 all ⟨List.Pairwise.nil, fun _ member => (nomatch member)⟩
    (fun _ held => (nomatch held))
  obtain ⟨mm2, pgdir', mapped, _, rfl⟩ := setup_stack_parts fails mem1 memS mm1 mmS stack set
  exact ((mm_map_shape mm1 mm2 _ _ _ mapped).2 _).mpr (.inr ((listed1 _).mpr (.inr ⟨ph, member, rfl⟩)))

theorem small_separate : Separate smallElf := by
  have one : segments smallElf = [⟨1, 5, 120, 0x800000, 16, 16⟩] := by decide +kernel
  have spans : ∀ vpn, Proghdr.Spans ⟨1, 5, 120, 0x800000, 16, 16⟩ vpn → vpn = 0x800 := by
    intro vpn inside
    have pages : segmentPages ⟨1, 5, 120, 0x800000, 16, 16⟩ = 1 := by decide
    rw [Proghdr.Spans, pages] at inside
    simp only [pgSize] at inside
    omega
  constructor <;> rw [one] <;> simp only [List.mem_singleton, forall_eq]
  · decide
  · decide
  · exact fun _ _ _ => trivial
  · intro vpn inside
    rw [spans vpn inside]
    decide
  · exact .inr (.inl rfl)

-- A read of the whole segment.
theorem user_mem_check_serves_small : ∃ mem mm after, Descends smallElf mem mm ∧ userMemCheck (some mm) 0x800000 16 false = .ok (true, some after) ∧
    ((∀ va, 0x800000 ≤ va → va < 0x800000 + 16 → Serves mm.pgdir false va) ↔ ∀ va, 0x800000 ≤ va → va < 0x800000 + 16 → ¬ StackGap (va / pgSize)) := by
  obtain ⟨memS, mmS, builds⟩ := small_builds
  have clean : ∀ page, smallMem.free page = true → smallMem.ref page = 0 := fun _ _ => rfl
  have descends : Descends smallElf memS mmS := .loaded noFailures smallMem memS mmS clean builds
  have backed := descends_backed smallElf small_separate memS mmS descends
  have member : Proghdr.mk 1 5 120 0x800000 16 16 ∈ segments smallElf := by decide +kernel
  have listed := built_lists noFailures smallMem memS smallElf mmS clean builds _ member
  obtain ⟨answer, after, ran, _, _, _, law⟩ := user_mem_check_spec mmS (backed.ordered memS mmS) backed.cached 0x800000 16 false
  have granted : answer = true := law.mpr ⟨by decide, fun va low high => ⟨⟨_, listed, ⟨by
    have start : roundDown 0x800000 pgSize = 0x800000 := by decide
    exact (Nat.le_of_eq start).trans low, by
    have stop : mapStop 0x800000 16 = 0x801000 := by decide
    have top : (0x800000 : UInt64).toNat + (16 : UInt64).toNat = 0x800010 := by decide
    show va < mapStop 0x800000 16
    omega⟩, by decide⟩, fun stores => (by cases stores)⟩⟩
  rw [granted] at ran
  exact ⟨memS, mmS, after, descends, ran, user_mem_check_serves_iff smallElf small_separate memS mmS after descends 0x800000 16 false ran⟩

end Ucore.Exec
