import Ucore.Exec.ImageBuilt

set_option autoImplicit false

namespace Ucore.Exec

open Ucore.Lib Ucore.Vmm

-- A frame of an address space holds one of its tables or is mapped.
def Own (pgdir : Pgdir) (frame : Nat) : Prop :=
  (∃ a, pgdir.pageAt a = some frame) ∨ ∃ vpn pte, vpn < nPages ∧ pgdir.entry vpn = some pte ∧ pte.ppn = frame

-- Pages come in at places that were empty: the bytes elsewhere stay, and nothing is
-- written outside the frames of the address space.
structure Adds (mem mem' : Mem) (pgdir pgdir' : Pgdir) (first count : Nat) : Prop where
  kept : ∀ va, va / pgSize < nPages → va / pgSize < first ∨ first + count ≤ va / pgSize → userByte mem' pgdir' va = userByte mem pgdir va
  own : ∀ frame, Own pgdir frame → Own pgdir' frame
  outside : ∀ addr, ¬ Own pgdir' (addr / pgSize) → mem'.phys addr = mem.phys addr

theorem adds_nothing (mem : Mem) (pgdir : Pgdir) (first : Nat) : Adds mem mem pgdir pgdir first 0 :=
  ⟨fun _ _ _ => rfl, fun _ owned => owned, fun _ _ => rfl⟩

theorem adds_append (mem mem1 mem2 : Mem) (pgdir pgdir1 pgdir2 : Pgdir) (first one two : Nat) (left : Adds mem mem1 pgdir pgdir1 first one)
    (right : Adds mem1 mem2 pgdir1 pgdir2 (first + one) two) : Adds mem mem2 pgdir pgdir2 first (one + two) := by
  refine ⟨fun va bound away => ?_, fun frame owned => right.own frame (left.own frame owned), fun addr apart => ?_⟩
  · rw [right.kept va bound (by omega), left.kept va bound (by omega)]
  · rw [right.outside addr apart, left.outside addr fun owned => apart (right.own _ owned)]

section Round

variable (mem memA : Mem) (pgdir pgdirA : Pgdir) (foreign : Nat → Prop) (outside : Nat → Nat) (image : Image mem pgdir foreign outside)
  (vpn page perm start size : Nat) (buf : Bytes) (small : vpn < nPages) (empty : pgdir.entry vpn = none)
  (allocated : pgdirAllocPage mem pgdir (vpn * pgSize) perm = .ok (some page, memA, pgdirA)) (lower : vpn * pgSize ≤ start)
  (upper : start + size ≤ vpn * pgSize + pgSize)

include image small empty allocated lower upper

-- One round of the loops that fills a part of the page that it maps.
theorem round_adds : Adds mem { memA with phys := memcpy memA.phys (roundAddr page start (vpn * pgSize)) buf size } pgdir pgdirA vpn 1 ∧
    ∀ k, k < size → userByte { memA with phys := memcpy memA.phys (roundAddr page start (vpn * pgSize)) buf size } pgdirA (start + k) = some (buf k) := by
  have index := page_index vpn
  obtain ⟨_, given⟩ := given_image mem memA pgdir pgdirA foreign outside (vpn * pgSize) perm page image (by rwa [index]) allocated
  obtain ⟨_, _, unmapped⟩ := given_apart mem memA pgdir pgdirA foreign outside image.space (vpn * pgSize) perm page (by rwa [index]) allocated
  rw [index] at given
  have place : roundAddr page start (vpn * pgSize) = page * pgSize + (start - vpn * pgSize) := by
    unfold roundAddr roundOff
    omega
  have mine : pgdirA.entry vpn = some (pteCreate page (pteV ||| perm)) := by rw [given.entry vpn small, if_pos rfl]
  rw [place]
  refine ⟨⟨fun va bound away => ?_, fun frame owned => ?_, fun addr apart => ?_⟩, fun k inside => ?_⟩
  · have same : pgdirA.entry (va / pgSize) = pgdir.entry (va / pgSize) := by rw [given.entry _ bound, if_neg (by omega)]
    rw [userByte, userByte, same]
    cases here : pgdir.entry (va / pgSize) with
    | none => rfl
    | some pte =>
        have other := unmapped _ pte bound here
        have used := (image.space.mapped pte.ppn ((count_pos pgdir pte.ppn).mpr ⟨_, bound, by simp [Pgdir.Maps, here]⟩)).1
        have frame : (pte.ppn * pgSize + va % pgSize) / pgSize = pte.ppn := by
          simp only [pgSize]
          omega
        simp only [Option.map_some, Option.some.injEq]
        rw [memcpy_outside _ _ _ _ _ (by simp only [pgSize] at *; omega)]
        exact given.phys _ (.inl (by rw [frame]; exact used))
  · cases owned with
    | inl table =>
        obtain ⟨a, here⟩ := table
        exact .inl ⟨a, given.tables a frame here⟩
    | inr mapped =>
        obtain ⟨other, pte, bound, here, same⟩ := mapped
        refine .inr ⟨other, pte, bound, ?_, same⟩
        have differs : other ≠ vpn := by
          intro equal
          rw [equal, empty] at here
          cases here
        rw [given.entry other bound, if_neg differs, here]
  · have other : addr / pgSize ≠ page := fun same => apart (.inr ⟨vpn, _, small, mine, same.symm⟩)
    simp only []
    rw [memcpy_outside _ _ _ _ _ (by simp only [pgSize] at *; omega)]
    exact given.phys addr (.inr fun a here => apart (.inl ⟨a, here⟩))
  · have at' : (start + k) / pgSize = vpn ∧ (start + k) % pgSize = start - vpn * pgSize + k := by
      simp only [pgSize] at lower upper ⊢
      omega
    rw [userByte, at'.1, mine, at'.2]
    simp only [Option.map_some, pteCreate, Option.some.injEq]
    rw [memcpy_inside _ _ _ _ _ (by omega) (by omega)]
    congr 1
    omega

end Round

theorem round_inside (start stop vpn : Nat) (before : start < stop) (upper : start < vpn * pgSize + pgSize) :
    start + roundSize start stop (vpn * pgSize) ≤ vpn * pgSize + pgSize := by
  have ended := round_end start stop (vpn * pgSize) before upper
  by_cases far : stop < vpn * pgSize + pgSize
  · rw [if_pos far] at ended
    omega
  · rw [if_neg far] at ended
    omega

theorem round_positive (start stop vpn : Nat) (before : start < stop) (upper : start < vpn * pgSize + pgSize) : 0 < roundSize start stop (vpn * pgSize) := by
  have ended := round_end start stop (vpn * pgSize) before upper
  by_cases far : stop < vpn * pgSize + pgSize
  · rw [if_pos far] at ended
    omega
  · rw [if_neg far] at ended
    omega

section Loops

variable (foreign : Nat → Prop) (outside : Nat → Nat) (perm stop : Nat)

-- The loop over the bytes of the file, on pages that were empty.
theorem load_text_bytes (fails : Failures) (file : ElfFile) (mem mem' : Mem) (pgdir pgdir' : Pgdir) (start vpn offset fuel start' la' : Nat)
    (image : Image mem pgdir foreign outside) (here : start < stop → vpn * pgSize ≤ start ∧ start < vpn * pgSize + pgSize)
    (near : start ≤ userTop + offset) (empty : ∀ v, v < nPages → vpn ≤ v → v < vpn + textCount start stop vpn → pgdir.entry v = none)
    (ran : loadText fails file mem pgdir perm stop start (vpn * pgSize) offset fuel = .ok (0, mem', pgdir', start', la')) :
    Adds mem mem' pgdir pgdir' vpn (textCount start stop vpn) ∧
      ∀ k, start + k < stop → userByte mem' pgdir' (start + k) = some (file.bytes (offset + k)) := by
  induction fuel generalizing mem pgdir start vpn offset with
  | zero => simp [loadText] at ran
  | succ fuel ih =>
      by_cases before : start < stop
      · obtain ⟨page, memA, pgdirA, buf, allocated, got, rest⟩ := load_text_round fails file mem mem' pgdir pgdir' perm stop start _ offset fuel
          start' la' before ran
        obtain ⟨below, size, shape⟩ := load_icode_read_ok fails file _ _ _ buf got
        obtain ⟨lower, upper⟩ := here before
        have small : vpn < nPages := by
          simp only [nPages, pgSize, userTop, sfsMaxFileSize] at *
          omega
        rw [text_count_round start stop vpn before lower upper] at empty ⊢
        have index := page_index vpn
        obtain ⟨imageA, given⟩ := given_image mem memA pgdir pgdirA foreign outside (vpn * pgSize) perm page image (by rwa [index]) allocated
        rw [index] at given
        obtain ⟨adds, bytes⟩ := round_adds mem memA pgdir pgdirA foreign outside image vpn page perm start (roundSize start stop (vpn * pgSize)) buf small
          (empty vpn small (Nat.le_refl _) (by omega)) allocated lower (round_inside start stop vpn before upper)
        have next : vpn * pgSize + pgSize = (vpn + 1) * pgSize := by rw [Nat.succ_mul]
        rw [next] at rest
        have ended := round_end start stop (vpn * pgSize) before upper
        obtain ⟨addsR, bytesR⟩ := ih _ pgdirA (start + roundSize start stop (vpn * pgSize)) (vpn + 1) (offset + roundSize start stop (vpn * pgSize))
          (image_phys memA pgdirA foreign outside imageA _) (fun more => by
            rw [round_next start stop vpn before upper more]
            exact ⟨Nat.le_refl _, Nat.lt_add_of_pos_right (by decide)⟩) (by omega) (fun v inside low high => by
            rw [given.entry v inside, if_neg (by omega)]
            exact empty v inside (by omega) (by omega)) rest
        refine ⟨adds_append _ _ _ _ _ _ _ _ _ adds addsR, fun k less => ?_⟩
        by_cases first : k < roundSize start stop (vpn * pgSize)
        · have at' : (start + k) / pgSize = vpn := by
            have inside := round_inside start stop vpn before upper
            simp only [pgSize] at *
            omega
          rw [addsR.kept _ (by omega) (by omega), bytes k first, shape, Bytes.from]
        · have later := bytesR (k - roundSize start stop (vpn * pgSize)) (by omega)
          rw [show start + roundSize start stop (vpn * pgSize) + (k - roundSize start stop (vpn * pgSize)) = start + k by omega] at later
          rw [later]
          congr 2
          omega
      · obtain ⟨rfl, rfl, _, _⟩ := load_text_done fails file mem mem' pgdir pgdir' perm stop start _ offset fuel start' la' before ran
        rw [textCount, if_neg before]
        exact ⟨adds_nothing mem' pgdir' vpn, fun k less => by omega⟩

-- The loop over the rest of the segment, where it starts on the page that it maps.
theorem build_bss_bytes (mem mem' : Mem) (pgdir pgdir' : Pgdir) (start vpn fuel : Nat) (image : Image mem pgdir foreign outside)
    (here : start < stop → vpn * pgSize ≤ start ∧ start < vpn * pgSize + pgSize) (user : start < stop → stop ≤ userTop)
    (empty : ∀ v, v < nPages → vpn ≤ v → v < vpn + bssCount start stop vpn → pgdir.entry v = none)
    (ran : buildBss mem pgdir perm stop start (vpn * pgSize) fuel = .ok (0, mem', pgdir')) :
    Adds mem mem' pgdir pgdir' vpn (bssCount start stop vpn) ∧ ∀ k, start + k < stop → userByte mem' pgdir' (start + k) = some 0 := by
  induction fuel generalizing mem pgdir start vpn with
  | zero => simp [buildBss] at ran
  | succ fuel ih =>
      by_cases before : start < stop
      · obtain ⟨page, memA, pgdirA, allocated, rest⟩ := build_bss_round mem mem' pgdir pgdir' perm stop start _ fuel before ran
        obtain ⟨lower, upper⟩ := here before
        have high := user before
        have small : vpn < nPages := by
          simp only [nPages, pgSize, userTop] at *
          omega
        rw [bss_count_round start stop vpn before upper] at empty ⊢
        have index := page_index vpn
        obtain ⟨imageA, given⟩ := given_image mem memA pgdir pgdirA foreign outside (vpn * pgSize) perm page image (by rwa [index]) allocated
        rw [index] at given
        obtain ⟨adds, bytes⟩ := round_adds mem memA pgdir pgdirA foreign outside image vpn page perm start (roundSize start stop (vpn * pgSize)) zeroBytes small
          (empty vpn small (Nat.le_refl _) (by omega)) allocated lower (round_inside start stop vpn before upper)
        have next : vpn * pgSize + pgSize = (vpn + 1) * pgSize := by rw [Nat.succ_mul]
        rw [next] at rest
        obtain ⟨addsR, bytesR⟩ := ih _ pgdirA (start + roundSize start stop (vpn * pgSize)) (vpn + 1) (image_phys memA pgdirA foreign outside imageA _)
          (fun more => by
            rw [round_next start stop vpn before upper more]
            exact ⟨Nat.le_refl _, Nat.lt_add_of_pos_right (by decide)⟩) (fun _ => high) (fun v inside low high => by
            rw [given.entry v inside, if_neg (by omega)]
            exact empty v inside (by omega) (by omega)) rest
        refine ⟨adds_append _ _ _ _ _ _ _ _ _ adds addsR, fun k less => ?_⟩
        by_cases first : k < roundSize start stop (vpn * pgSize)
        · have at' : (start + k) / pgSize = vpn := by
            have inside := round_inside start stop vpn before upper
            simp only [pgSize] at *
            omega
          rw [addsR.kept _ (by omega) (by omega), bytes k first]
          rfl
        · have later := bytesR (k - roundSize start stop (vpn * pgSize)) (by omega)
          rw [show start + roundSize start stop (vpn * pgSize) + (k - roundSize start stop (vpn * pgSize)) = start + k by omega] at later
          exact later
      · obtain ⟨rfl, rfl⟩ := build_bss_done mem mem' pgdir pgdir' perm stop start _ fuel before ran
        rw [bssCount, if_neg before]
        exact ⟨adds_nothing mem' pgdir' vpn, fun k less => by omega⟩

end Loops

-- The pages of the area that mm_map makes for a segment.
def Proghdr.InArea (ph : Proghdr) (vpn : Nat) : Prop := ph.pVa / pgSize ≤ vpn ∧ vpn * pgSize < ph.pVa + ph.pMemsz

-- The bytes of the file end with a page, or one of the two parts is empty.
def Proghdr.Plain (ph : Proghdr) : Prop := ph.pFilesz = 0 ∨ ph.pFilesz = ph.pMemsz ∨ (ph.pVa + ph.pFilesz) % pgSize = 0

instance (ph : Proghdr) : Decidable ph.Plain :=
  inferInstanceAs (Decidable (ph.pFilesz = 0 ∨ ph.pFilesz = ph.pMemsz ∨ (ph.pVa + ph.pFilesz) % pgSize = 0))

-- What the program header asks for.
structure SegmentShown (mem : Mem) (pgdir : Pgdir) (file : ElfFile) (ph : Proghdr) : Prop where
  data : ∀ i, i < ph.pFilesz → userByte mem pgdir (ph.pVa + i) = some (file.bytes (ph.pOffset + i))
  bss : ∀ i, ph.pFilesz ≤ i → i < ph.pMemsz → userByte mem pgdir (ph.pVa + i) = some 0

section Segment

variable (ph : Proghdr) (sizes : ph.pFilesz ≤ ph.pMemsz) (user : ph.pVa + ph.pMemsz ≤ userTop)

include sizes user

-- Without the wrap around of the sums.
theorem text_pages_eq : textPages ph = if 0 < ph.pFilesz then (ph.pVa + ph.pFilesz + pgSize - 1) / pgSize - ph.pVa / pgSize else 0 := by
  have small : ph.pVa + ph.pFilesz < 2 ^ 64 := by
    simp only [userTop] at user
    omega
  rw [textPages, textCount, Nat.mod_eq_of_lt small]
  by_cases data : 0 < ph.pFilesz
  · rw [if_pos (by omega), if_pos data]
  · rw [if_neg (by omega), if_neg data]

theorem text_stop_eq : textStop ph = ph.pVa + ph.pFilesz := by
  have small : ph.pVa + ph.pFilesz < 2 ^ 64 := by
    simp only [userTop] at user
    omega
  rw [textStop, Nat.mod_eq_of_lt small]
  by_cases data : 0 < ph.pFilesz
  · rw [if_pos (by omega)]
  · rw [if_neg (by omega)]
    omega

theorem segment_pages_plain (plain : ph.Plain) : (0 < ph.pMemsz → ∀ vpn, ph.pVa / pgSize ≤ vpn ∧ vpn < ph.pVa / pgSize + segmentPages ph ↔ ph.InArea vpn) ∧
    (ph.pMemsz = 0 → segmentPages ph = 0) ∧
    (ph.pFilesz < ph.pMemsz → (ph.pVa / pgSize + textPages ph) * pgSize ≤ ph.pVa + ph.pFilesz ∧
      ph.pVa + ph.pFilesz < (ph.pVa / pgSize + textPages ph) * pgSize + pgSize) := by
  have small : ph.pVa + ph.pMemsz < 2 ^ 64 := by
    simp only [userTop] at user
    omega
  rw [segmentPages, bssCount, text_stop_eq ph sizes user, text_pages_eq ph sizes user, Nat.mod_eq_of_lt small]
  simp only [Proghdr.InArea]
  simp only [Proghdr.Plain, pgSize] at *
  refine ⟨fun positive vpn => ?_, fun empty => ?_, fun more => ?_⟩
  · by_cases data : 0 < ph.pFilesz
    · rw [if_pos data]
      by_cases more : ph.pFilesz < ph.pMemsz
      · rw [if_pos (by omega)]
        omega
      · rw [if_neg (by omega)]
        omega
    · rw [if_neg data, if_pos (by omega)]
      omega
  · rw [if_neg (by omega), if_neg (by omega)]
  · by_cases data : 0 < ph.pFilesz
    · rw [if_pos data]
      omega
    · rw [if_neg data]
      omega

-- A plain segment on pages that were empty is as its header says.
theorem load_segment_bytes (plain : ph.Plain) (foreign : Nat → Prop) (outside : Nat → Nat) (fails : Failures) (file : ElfFile) (mem mem' : Mem) (mm mm' : Mm)
    (made : List Block) (image : Image mem mm.pgdir foreign outside) (empty : ∀ v, v < nPages → ph.InArea v → mm.pgdir.entry v = none)
    (ran : loadSegment fails file mem mm ph = .ok (0, mem', mm', made)) :
    Adds mem mem' mm.pgdir mm'.pgdir (ph.pVa / pgSize) (segmentPages ph) ∧ SegmentShown mem' mm'.pgdir file ph := by
  obtain ⟨_, mm1, mem1, pgdir1, start, la, pgdir2, mapped, text, bss, rfl⟩ := load_segment_parts fails file mem mem' mm mm' ph made ran
  obtain ⟨area, none', stands⟩ := segment_pages_plain ph sizes user plain
  have small : ph.pVa + ph.pMemsz < 2 ^ 64 := by
    simp only [userTop] at user
    omega
  have free : ∀ v, v < nPages → ph.pVa / pgSize ≤ v → v < ph.pVa / pgSize + segmentPages ph → mm.pgdir.entry v = none := by
    intro v bound low high
    have positive : 0 < ph.pMemsz := by
      by_contra zero
      rw [none' (by omega)] at high
      omega
    exact empty v bound ((area positive v).mp ⟨low, high⟩)
  have count : textPages ph ≤ segmentPages ph := Nat.le_add_right _ _
  rw [(mm_map_shape mm mm1 _ _ _ mapped).1] at text
  have within : ph.pVa < ph.pVa / pgSize * pgSize + pgSize := by
    simp only [pgSize]
    omega
  obtain ⟨image1, started, reached, maps1⟩ := load_text_pages foreign outside (pagePerm ph.vmFlags) _ fails file mem mem1 mm.pgdir pgdir1 ph.pVa
    (ph.pVa / pgSize) ph.pOffset _ start la image (fun _ => ⟨Nat.div_mul_le_self _ _, within⟩) (by omega) text
  obtain ⟨adds1, bytes1⟩ := load_text_bytes foreign outside (pagePerm ph.vmFlags) _ fails file mem mem1 mm.pgdir pgdir1 ph.pVa (ph.pVa / pgSize) ph.pOffset _
    start la image (fun _ => ⟨Nat.div_mul_le_self _ _, within⟩) (by omega) (fun v bound low high => free v bound low (by
      simp only [textPages] at count
      omega)) text
  have begins : start = ph.pVa + ph.pFilesz := started.trans (text_stop_eq ph sizes user)
  rw [reached, begins, Nat.mod_eq_of_lt small] at bss
  have whole : segmentPages ph = textPages ph + bssCount (ph.pVa + ph.pFilesz) (ph.pVa + ph.pMemsz) (ph.pVa / pgSize + textPages ph) := by
    rw [segmentPages, text_stop_eq ph sizes user, Nat.mod_eq_of_lt small]
  obtain ⟨adds2, bytes2⟩ := build_bss_bytes foreign outside (pagePerm ph.vmFlags) _ mem1 mem' pgdir1 pgdir2 (ph.pVa + ph.pFilesz) _ _ image1
    (fun more => stands (by omega)) (fun _ => user) (fun v bound low high => by
      have low' : ph.pVa / pgSize + textPages ph ≤ v := low
      have high' : v < ph.pVa / pgSize + textPages ph + bssCount (ph.pVa + ph.pFilesz) (ph.pVa + ph.pMemsz) (ph.pVa / pgSize + textPages ph) := high
      rw [maps1.outside v bound (.inr low)]
      exact free v bound (by omega) (by omega)) bss
  refine ⟨?_, fun i inside => ?_, fun i lower upper => ?_⟩
  · rw [whole]
    exact adds_append _ _ _ _ _ _ _ _ _ adds1 adds2
  · have page : (ph.pVa + i) / pgSize < nPages ∧ (ph.pVa + i) / pgSize < ph.pVa / pgSize + textPages ph := by
      rw [text_pages_eq ph sizes user, if_pos (by omega)]
      simp only [userTop, pgSize, nPages] at *
      omega
    rw [show userByte mem' _ (ph.pVa + i) = userByte mem1 pgdir1 (ph.pVa + i) from adds2.kept _ page.1 (.inl page.2)]
    exact bytes1 i (by omega)
  · have later := bytes2 (i - ph.pFilesz) (by omega)
    rw [show ph.pVa + ph.pFilesz + (i - ph.pFilesz) = ph.pVa + i by omega] at later
    exact later

end Segment

-- An area that mm_map puts in meets none of those before.
theorem mm_map_areas (mm mm' : Mm) (addr len vmFlags : Nat) (areas : Areas mm.mmapList) (cached : mm.Cached)
    (ran : mmMap mm addr len vmFlags = .ok (0, mm')) : Areas mm'.mmapList ∧ mm'.Cached ∧
      ∀ vma ∈ mm.mmapList, Vma.Apart vma ⟨roundDown addr pgSize, mapStop addr len, vmFlags⟩ := by
  have ordered : Ordered mm.mmapList := ⟨areas.apart, fun vma member => (areas.fits vma member).2.2.2.1⟩
  have user := mm_map_user mm mm' addr len vmFlags ran
  have gap : ∀ vma ∈ mm.mmapList, ¬ vma.Has (roundDown addr pgSize) := by
    intro vma member inside
    rw [mm_map_begins_inside mm addr len vmFlags ordered cached user vma member inside] at ran
    simp [eInval] at ran
  rw [mm_map_gap mm addr len vmFlags ordered cached user gap] at ran
  cases inserted : insertVmaStruct mm ⟨roundDown addr pgSize, mapStop addr len, vmFlags⟩ with
  | error fault => simp [inserted, Except.map] at ran
  | ok mm1 =>
      simp only [inserted, Except.map, Except.ok.injEq, Prod.mk.injEq, true_and] at ran
      subst ran
      have fits : Vma.Fits ⟨roundDown addr pgSize, mapStop addr len, vmFlags⟩ := by
        refine ⟨?_, ?_, user⟩
        · simp [roundDown]
        · simp [mapStop, roundUp, roundDown]
      obtain ⟨areas', _, members⟩ := insert_vma_spec mm mm1 _ areas fits inserted
      refine ⟨areas', fun other held => ?_, fun vma member => ?_⟩
      · unfold insertVmaStruct at inserted
        obtain ⟨_, inserted⟩ := check_bind_ok inserted
        obtain ⟨_, _, inserted⟩ := bind_ok inserted
        obtain ⟨_, _, inserted⟩ := bind_ok inserted
        obtain rfl := Except.ok.inj inserted
        exact (members other).mpr (.inr (cached other held))
      · have differ : vma ≠ ⟨roundDown addr pgSize, mapStop addr len, vmFlags⟩ := by
          intro equal
          exact gap vma member ⟨by rw [equal], by rw [equal]; exact user.2.1⟩
        have away : mm1.mmapList.Pairwise Vma.Apart := areas'.apart.imp Or.inl
        exact away.forall ((members vma).mpr (.inr member)) ((members _).mpr (.inl rfl)) differ

def Proghdr.vma (ph : Proghdr) : Vma := ⟨roundDown ph.pVa pgSize, mapStop ph.pVa ph.pMemsz, ph.vmFlags⟩

theorem vma_has_page (ph : Proghdr) (user : ph.pVa + ph.pMemsz ≤ userTop) (vpn : Nat) : ph.vma.Has (vpn * pgSize) ↔ ph.InArea vpn := by
  have small : ph.pVa + ph.pMemsz < 2 ^ 64 := by
    simp only [userTop] at user
    omega
  simp only [Vma.Has, Proghdr.vma, Proghdr.InArea, map_stop_small ph.pVa ph.pMemsz small, roundUp, roundDown, pgSize]
  omega

-- The segments so far: their areas, their pages and their bytes, and nothing that is
-- written outside.
structure Placed (file : ElfFile) (start : Mem) (foreign : Nat → Prop) (outside : Nat → Nat) (done : List Proghdr) (mem : Mem) (mm : Mm) : Prop where
  image : Image mem mm.pgdir foreign outside
  areas : Areas mm.mmapList
  cached : mm.Cached
  listed : ∀ vma, vma ∈ mm.mmapList ↔ ∃ ph ∈ done, vma = ph.vma
  apart : done.Pairwise fun ph other => Vma.Apart ph.vma other.vma
  pages : ∀ vpn, vpn < nPages → (mm.pgdir.entry vpn ≠ none ↔ ∃ ph ∈ done, 0 < ph.pMemsz ∧ ph.InArea vpn)
  shown : ∀ ph ∈ done, SegmentShown mem mm.pgdir file ph
  clean : ∀ addr, ¬ Own mm.pgdir (addr / pgSize) → mem.phys addr = start.phys addr

theorem apart_pages (left right : Vma) (apart : Vma.Apart left right) (addr : Nat) (inLeft : left.Has addr) : ¬ right.Has addr := by
  intro inRight
  simp only [Vma.Apart, Vma.Has] at apart inLeft inRight
  omega

theorem shown_kept (file : ElfFile) (mem mem' : Mem) (pgdir pgdir' : Pgdir) (ph : Proghdr) (sizes : ph.pFilesz ≤ ph.pMemsz)
    (kept : ∀ va, ph.pVa ≤ va → va < ph.pVa + ph.pMemsz → userByte mem' pgdir' va = userByte mem pgdir va) (shown : SegmentShown mem pgdir file ph) :
    SegmentShown mem' pgdir' file ph := by
  refine ⟨fun i inside => ?_, fun i lower upper => ?_⟩
  · rw [kept _ (by omega) (by omega)]
    exact shown.data i inside
  · rw [kept _ (by omega) (by omega)]
    exact shown.bss i lower upper

theorem area_of_byte (ph : Proghdr) (va : Nat) (lower : ph.pVa ≤ va) (upper : va < ph.pVa + ph.pMemsz) : ph.InArea (va / pgSize) := by
  simp only [Proghdr.InArea, pgSize]
  omega

section Step

variable (file : ElfFile) (start : Mem) (foreign : Nat → Prop) (outside : Nat → Nat)

theorem placed_next (fails : Failures) (done : List Proghdr) (mem mem' : Mem) (mm mm' : Mm) (ph : Proghdr) (made : List Block)
    (placed : Placed file start foreign outside done mem mm) (bounds : ∀ other ∈ done, other.pFilesz ≤ other.pMemsz ∧ other.pVa + other.pMemsz ≤ userTop)
    (user : ph.pVa + ph.pMemsz ≤ userTop) (plain : ph.Plain) (ran : loadSegment fails file mem mm ph = .ok (0, mem', mm', made)) :
    ph.pFilesz ≤ ph.pMemsz ∧ Placed file start foreign outside (done ++ [ph]) mem' mm' := by
  obtain ⟨sizes, mm1, mem1, pgdir1, begun, la, pgdir2, mapped, _, _, shape⟩ := load_segment_parts fails file mem mem' mm mm' ph made ran
  obtain ⟨areas, cached, apart⟩ := mm_map_areas mm mm1 _ _ _ placed.areas placed.cached mapped
  obtain ⟨_, members⟩ := mm_map_shape mm mm1 _ _ _ mapped
  obtain ⟨image, maps⟩ := load_segment_pages foreign outside fails file mem mem' mm mm' ph made placed.image ran
  obtain ⟨area, none', _⟩ := segment_pages_plain ph sizes user plain
  -- No page of the new area was mapped.
  have away : ∀ other ∈ done, ∀ vpn, other.InArea vpn → ¬ ph.InArea vpn := by
    intro other member vpn inOther inNew
    have between := apart other.vma ((placed.listed _).mpr ⟨other, member, rfl⟩)
    exact apart_pages _ _ between (vpn * pgSize) ((vma_has_page other (bounds other member).2 vpn).mpr inOther) ((vma_has_page ph user vpn).mpr inNew)
  have empty : ∀ v, v < nPages → ph.InArea v → mm.pgdir.entry v = none := by
    intro v bound inside
    by_contra mapped'
    obtain ⟨other, member, _, inOther⟩ := (placed.pages v bound).mp mapped'
    exact away other member v inOther inside
  obtain ⟨adds, shown⟩ := load_segment_bytes ph sizes user plain foreign outside fails file mem mem' mm mm' made placed.image empty ran
  have beyond : ∀ vpn, ¬ ph.InArea vpn → vpn < ph.pVa / pgSize ∨ ph.pVa / pgSize + segmentPages ph ≤ vpn := by
    intro vpn not
    by_cases positive : 0 < ph.pMemsz
    · by_contra between
      exact not ((area positive vpn).mp (by omega))
    · rw [none' (by omega)]
      omega
  refine ⟨sizes, image, ?_, ?_, fun vma => ?_, ?_, fun vpn bound => ?_, fun other member => ?_, fun addr outer => ?_⟩
  · rw [shape]
    exact areas
  · rw [shape]
    exact cached
  · rw [shape]
    simp only [List.mem_append, List.mem_singleton]
    rw [members vma, placed.listed vma]
    constructor
    · intro either
      cases either with
      | inl new => exact ⟨ph, .inr rfl, new⟩
      | inr old =>
          obtain ⟨other, member, same⟩ := old
          exact ⟨other, .inl member, same⟩
    · intro found
      obtain ⟨other, member, same⟩ := found
      cases member with
      | inl old => exact .inr ⟨other, old, same⟩
      | inr new => exact .inl (by rw [same, new]; rfl)
  · refine List.pairwise_append.mpr ⟨placed.apart, List.pairwise_singleton _ _, fun other member new same => ?_⟩
    rw [List.mem_singleton.mp same]
    exact apart other.vma ((placed.listed _).mpr ⟨other, member, rfl⟩)
  · by_cases inside : ph.InArea vpn ∧ 0 < ph.pMemsz
    · obtain ⟨page, entry⟩ := maps.inside vpn bound ((area inside.2 vpn).mpr inside.1).1 ((area inside.2 vpn).mpr inside.1).2
      refine iff_of_true (by rw [entry]; simp) ⟨ph, by simp, inside.2, inside.1⟩
    · have same : mm'.pgdir.entry vpn = mm.pgdir.entry vpn := by
        refine maps.outside vpn bound ?_
        by_cases inArea : ph.InArea vpn
        · rw [none' (by
            by_contra positive
            exact inside ⟨inArea, by omega⟩)]
          omega
        · exact beyond vpn inArea
      rw [same, placed.pages vpn bound]
      constructor
      · intro found
        obtain ⟨other, member, both⟩ := found
        exact ⟨other, by simp [member], both⟩
      · intro found
        obtain ⟨other, member, both⟩ := found
        cases List.mem_append.mp member with
        | inl old => exact ⟨other, old, both⟩
        | inr new =>
            rw [List.mem_singleton.mp new] at both
            exact absurd ⟨both.2, both.1⟩ inside
  · cases List.mem_append.mp member with
    | inl old =>
        refine shown_kept file mem mem' _ _ other (bounds other old).1 (fun va lower upper => ?_) (placed.shown other old)
        have inOther := area_of_byte other va lower upper
        have low := (bounds other old).2
        exact adds.kept va (by simp only [userTop, pgSize, nPages] at *; omega) (beyond _ (away other old _ inOther))
    | inr new =>
        rw [List.mem_singleton.mp new]
        exact shown
  · rw [adds.outside addr outer]
    exact placed.clean addr fun owned => outer (adds.own _ owned)

theorem placed_all (fails : Failures) (list : List Proghdr) (mem mem' : Mem) (mm mm' : Mm) (loads : LoadsAll fails file list mem mm mem' mm')
    (done : List Proghdr) (placed : Placed file start foreign outside done mem mm)
    (bounds : ∀ other ∈ done, other.pFilesz ≤ other.pMemsz ∧ other.pVa + other.pMemsz ≤ userTop)
    (user : ∀ ph ∈ list, ph.pVa + ph.pMemsz ≤ userTop) (plain : ∀ ph ∈ list, ph.Plain) :
    Placed file start foreign outside (done ++ list) mem' mm' ∧ ∀ ph ∈ done ++ list, ph.pFilesz ≤ ph.pMemsz ∧ ph.pVa + ph.pMemsz ≤ userTop := by
  induction loads generalizing done with
  | none _ _ =>
      rw [List.append_nil]
      exact ⟨placed, bounds⟩
  | next ph rest mem mem1 mem' mm mm1 mm' made first _ ih =>
      obtain ⟨sizes, placed1⟩ := placed_next file start foreign outside fails done mem mem1 mm mm1 ph made placed bounds (user ph (by simp)) (plain ph (by simp)) first
      have all := ih (done ++ [ph]) placed1 (fun other member => by
        cases List.mem_append.mp member with
        | inl old => exact bounds other old
        | inr new =>
            rw [List.mem_singleton.mp new]
            exact ⟨sizes, user ph (by simp)⟩) (fun other member => user other (by simp [member])) fun other member => plain other (by simp [member])
      rwa [List.append_assoc] at all

end Step

end Ucore.Exec
