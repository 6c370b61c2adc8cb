import Ucore.Exec.GivenPage
import Ucore.Vmm.VmaList

set_option autoImplicit false

namespace Ucore.Exec

open Ucore.Lib Ucore.Vmm

-- A run of pages gets frames with the same permission, and no other entry changes.
structure MapsPages (pgdir pgdir' : Pgdir) (first count perm : Nat) : Prop where
  inside : ∀ vpn, vpn < nPages → first ≤ vpn → vpn < first + count → ∃ page, pgdir'.entry vpn = some (pteCreate page (pteV ||| perm))
  outside : ∀ vpn, vpn < nPages → vpn < first ∨ first + count ≤ vpn → pgdir'.entry vpn = pgdir.entry vpn

theorem maps_nothing (pgdir : Pgdir) (first perm : Nat) : MapsPages pgdir pgdir first 0 perm :=
  ⟨fun vpn _ lower upper => by omega, fun _ _ _ => rfl⟩

theorem given_maps (mem mem' : Mem) (pgdir pgdir' : Pgdir) (vpn page perm : Nat) (given : Given mem mem' pgdir pgdir' vpn page perm) :
    MapsPages pgdir pgdir' vpn 1 perm := by
  refine ⟨fun other bound lower upper => ⟨page, ?_⟩, fun other bound away => ?_⟩
  · rw [given.entry other bound, if_pos (by omega)]
  · rw [given.entry other bound, if_neg (by omega)]

theorem maps_append (pgdir pgdir' pgdir'' : Pgdir) (first one two perm : Nat) (left : MapsPages pgdir pgdir' first one perm)
    (right : MapsPages pgdir' pgdir'' (first + one) two perm) : MapsPages pgdir pgdir'' first (one + two) perm := by
  refine ⟨fun vpn bound lower upper => ?_, fun vpn bound away => ?_⟩
  · by_cases late : first + one ≤ vpn
    · exact right.inside vpn bound late (by omega)
    · rw [right.outside vpn bound (by omega)]
      exact left.inside vpn bound lower (by omega)
  · rw [right.outside vpn bound (by omega), left.outside vpn bound (by omega)]

-- A seek that returns: it stays in the file, it is refused, its growth is within the
-- blocks that a file can have, or the disk is full or fails before.
def SeekSafe (fails : Failures) (file : ElfFile) (offset : Nat) : Prop :=
  ((file.size < offset ∧ offset < sfsMaxFileSize) ∧ fails.grow ≠ none) ∨ Sfs.IndexSafe file.sfs file.sin.din (.tryseek (Sfs.toOff offset))

theorem tryseek_inside (file : ElfFile) (offset : Nat) (inside : offset ≤ file.size) :
    vopTryseek file offset = .ok 0 ∧ ¬ file.sin.din.size < Sfs.toOff offset := by
  have small := Sfs.stored_small file.sfs file.sin.din file.stored
  simp only [ElfFile.size] at inside
  have whole : Sfs.toOff offset = offset := Int.bmod_eq_of_le (by omega) (by omega)
  have limit : (Sfs.maxFileSize : Int) = 134217728 := rfl
  have valid : ¬ ((Sfs.toOff offset) < 0 ∨ (Sfs.maxFileSize : Int) ≤ Sfs.toOff offset) := by omega
  have stays : ¬ (file.sin.din.size : Int) < Sfs.toOff offset := by omega
  have ran : Sfs.sfsTryseek file.sfs file.sin (Sfs.toOff offset) = .ok (0, file.sfs, file.sin) := by
    rw [Sfs.sfsTryseek, if_neg valid, if_neg stays]
  exact ⟨by rw [vopTryseek, ran]; rfl, stays⟩

theorem seek_in_file (fails : Failures) (file : ElfFile) (offset : Nat) (inside : offset ≤ file.size) :
    sysfileSeek fails file offset = .ok 0 ∧ SeekSafe fails file offset := by
  obtain ⟨ran, stays⟩ := tryseek_inside file offset inside
  refine ⟨?_, .inr fun beyond => absurd beyond.2.2 stays⟩
  rw [sysfileSeek]
  cases fails.grow with
  | none => exact ran
  | some ret => exact (if_neg (by omega)).trans ran

theorem sysfile_seek_settled (fails : Failures) (file : ElfFile) (offset : Nat) :
    (SeekSafe fails file offset ∧ ∃ ret, sysfileSeek fails file offset = .ok ret) ∨
      (¬ SeekSafe fails file offset ∧ sysfileSeek fails file offset = .error .assertFailed) := by
  by_cases fails' : (file.size < offset ∧ offset < sfsMaxFileSize) ∧ fails.grow ≠ none
  · obtain ⟨ret, grow⟩ := Option.ne_none_iff_exists'.mp fails'.2
    exact .inl ⟨.inl fails', ret, by rw [sysfileSeek, grow]; exact if_pos fails'.1⟩
  · have same : sysfileSeek fails file offset = vopTryseek file offset := by
      rw [sysfileSeek]
      cases grow : fails.grow with
      | none => rfl
      | some ret => exact if_neg fun behind => fails' ⟨behind, by rw [grow]; exact Option.some_ne_none ret⟩
    obtain ⟨others, superOthers, map⟩ := file.map
    rcases Sfs.tryseek_settled others file.sfs file.sin superOthers file.mounted map file.works (Sfs.toOff offset) with
      ⟨safe, result, ran⟩ | ⟨stuck, panicked⟩
    · exact .inl ⟨.inr safe, result.1, by rw [same, vopTryseek, ran]; rfl⟩
    · refine .inr ⟨fun safe => ?_, ?_⟩
      · cases safe with
        | inl failed => exact fails' failed
        | inr safe => exact stuck safe
      · rw [same, vopTryseek]
        rcases panicked with stopped | stopped
        · rw [stopped]
          rfl
        · rw [stopped]
          rfl

theorem vop_tryseek_answer (file : ElfFile) (offset : Nat) (ret : Int) (ran : vopTryseek file offset = .ok ret) : ret ≤ 0 := by
  obtain ⟨others, superOthers, map⟩ := file.map
  rw [vopTryseek] at ran
  cases sought : Sfs.sfsTryseek file.sfs file.sin (Sfs.toOff offset) with
  | error fault =>
      rw [sought] at ran
      cases ran
  | ok result =>
      obtain ⟨code, sfs, sin⟩ := result
      rw [sought] at ran
      obtain rfl := Except.ok.inj ran
      rcases Sfs.tryseek_answer others file.sfs file.sin superOthers file.mounted map file.works _ code sfs sin sought with zero | bad | bad
      · exact Int.le_of_eq zero
      · exact bad ▸ (show Sfs.eInval ≤ 0 from by decide)
      · exact bad ▸ (show Sfs.eNoMem ≤ 0 from by decide)

theorem sysfile_seek_answer (fails : Failures) (file : ElfFile) (offset : Nat) (ret : Int)
    (ran : sysfileSeek fails file offset = .ok ret) : ret ≤ 0 := by
  rw [sysfileSeek] at ran
  cases grow : fails.grow with
  | none =>
      rw [grow] at ran
      exact vop_tryseek_answer file offset ret ran
  | some code =>
      simp only [grow] at ran
      by_cases behind : file.size < offset ∧ offset < sfsMaxFileSize
      · rw [if_pos behind] at ran
        exact Except.ok.inj ran ▸ Int.le_of_lt (fails.negativeGrow code grow)
      · rw [if_neg behind] at ran
        exact vop_tryseek_answer file offset ret ran

section Read

variable (fails : Failures) (file : ElfFile) (mem : Mem) (len offset : Nat)

-- The read comes to an end exactly when its seek does.
theorem load_icode_read_settled : (SeekSafe fails file offset ∧ ∃ ret buf, loadIcodeRead fails file mem len offset = .ok (ret, buf)) ∨
    (¬ SeekSafe fails file offset ∧ loadIcodeRead fails file mem len offset = .error .assertFailed) := by
  rw [loadIcodeRead]
  rcases sysfile_seek_settled fails file offset with ⟨safe, ret, ran⟩ | ⟨stuck, stopped⟩
  · refine .inl ⟨safe, ?_⟩
    rw [ran, ok_bind]
    by_cases bad : ret ≠ 0
    · exact ⟨ret, _, if_pos bad⟩
    · rw [if_neg bad]
      cases fails.read mem len offset with
      | some ret' => exact ⟨ret', _, rfl⟩
      | none => exact ⟨_, _, rfl⟩
  · exact .inr ⟨stuck, by rw [stopped, error_bind]⟩

theorem load_icode_read_error (ret : Int) (buf : Bytes) (failed : loadIcodeRead fails file mem len offset = .ok (ret, buf)) (bad : ret ≠ 0) :
    ret < 0 := by
  rw [loadIcodeRead] at failed
  obtain ⟨sought, ran, failed⟩ := bind_ok failed
  have answer := sysfile_seek_answer fails file offset sought ran
  by_cases first : sought ≠ 0
  · rw [if_pos first] at failed
    have same := (Prod.mk.inj (Except.ok.inj failed)).1
    omega
  · rw [if_neg first] at failed
    cases read : fails.read mem len offset with
    | some ret' =>
        simp only [read, pure_ok, Except.ok.injEq, Prod.mk.injEq] at failed
        exact failed.1 ▸ fails.negative mem len offset ret' read
    | none =>
        simp only [read, pure_ok, Except.ok.injEq] at failed
        by_cases short : offset + len ≤ file.size
        · rw [if_pos short] at failed
          exact absurd (Prod.mk.inj failed).1.symm bad
        · rw [if_neg short] at failed
          have same := (Prod.mk.inj failed).1
          omega

theorem load_icode_read_ok (buf : Bytes) (got : loadIcodeRead fails file mem len offset = .ok (0, buf)) :
    offset < sfsMaxFileSize ∧ offset + len ≤ file.size ∧ buf = file.bytes.from offset := by
  rw [loadIcodeRead] at got
  obtain ⟨sought, _, got⟩ := bind_ok got
  by_cases first : sought ≠ 0
  · rw [if_pos first] at got
    exact absurd (Prod.mk.inj (Except.ok.inj got)).1 first
  · rw [if_neg first] at got
    cases read : fails.read mem len offset with
    | some ret' =>
        simp only [read, pure_ok, Except.ok.injEq, Prod.mk.injEq] at got
        have negative := fails.negative mem len offset ret' read
        omega
    | none =>
        simp only [read, pure_ok, Except.ok.injEq] at got
        by_cases short : offset + len ≤ file.size
        · rw [if_pos short] at got
          have small := Sfs.stored_small file.sfs file.sin.din file.stored
          simp only [ElfFile.size] at short ⊢
          exact ⟨by simp only [sfsMaxFileSize]; omega, short, (Prod.mk.inj got).2.symm⟩
        · rw [if_neg short] at got
          exact absurd (Prod.mk.inj got).1 (by decide)

-- A read inside the file brings its bytes.
theorem load_icode_read_inside (works : fails.read mem len offset = none) (inside : offset + len ≤ file.size) :
    loadIcodeRead fails file mem len offset = .ok (0, file.bytes.from offset) := by
  obtain ⟨ran, _⟩ := seek_in_file fails file offset (by omega)
  rw [loadIcodeRead, ran, ok_bind, works]
  simp only [ne_eq, not_true_eq_false, if_false, if_pos inside, pure_ok]

end Read

-- What sfs_io brings of such a file are these bytes.
theorem elf_read_shown (file : ElfFile) (buf : Bytes) (offset len : Nat) (some' : 0 < len) (inside : offset + len ≤ file.size) :
    ∃ s, Sfs.sfsIoNolock file.sfs file.sin buf offset len false = .ok (0, s) ∧ s.alen = len ∧
      ∀ k, k < len → s.buf k = file.bytes.from offset k := by
  have small := Sfs.stored_small file.sfs file.sin.din file.stored
  simp only [ElfFile.size] at inside
  obtain ⟨ret, s, moved, ran, alen, _, brought, _, _, complete, success⟩ :=
    Sfs.read_nolock_spec file.sfs file.sin buf offset len file.mounted file.stored (by simp only [Sfs.maxFileSize]; omega) (by omega)
  have zero := success file.works
  have count := complete zero
  simp only [Sfs.readCount] at count
  refine ⟨s, by rw [ran, zero], by omega, fun k less => ?_⟩
  rw [brought k, if_pos (by omega)]
  rfl

-- After a round start stands at the end or at the next page.
theorem round_end (start stop la : Nat) (before : start < stop) (here : start < la + pgSize) :
    start + roundSize start stop la = if stop < la + pgSize then stop else la + pgSize := by
  unfold roundSize roundOff
  split
  · omega
  · omega

section Rounds

variable (fails : Failures) (file : ElfFile) (mem mem' : Mem) (pgdir pgdir' : Pgdir) (perm stop start la offset fuel start' la' : Nat)

theorem load_text_done (done : ¬ start < stop)
    (ran : loadText fails file mem pgdir perm stop start la offset (fuel + 1) = .ok (0, mem', pgdir', start', la')) :
    mem' = mem ∧ pgdir' = pgdir ∧ start' = start ∧ la' = la := by
  rw [loadText, if_neg done] at ran
  simp only [pure_ok, Except.ok.injEq, Prod.mk.injEq] at ran
  obtain ⟨_, rfl, rfl, rfl, rfl⟩ := ran
  exact ⟨rfl, rfl, rfl, rfl⟩

theorem load_text_round (before : start < stop)
    (ran : loadText fails file mem pgdir perm stop start la offset (fuel + 1) = .ok (0, mem', pgdir', start', la')) :
    ∃ page memA pgdirA buf, pgdirAllocPage mem pgdir la perm = .ok (some page, memA, pgdirA) ∧
      loadIcodeRead fails file memA (roundSize start stop la) offset = .ok (0, buf) ∧
      loadText fails file { memA with phys := memcpy memA.phys (roundAddr page start la) buf (roundSize start stop la) } pgdirA perm stop
        (start + roundSize start stop la) (la + pgSize) (offset + roundSize start stop la) fuel = .ok (0, mem', pgdir', start', la') := by
  rw [loadText, if_pos before] at ran
  obtain ⟨⟨found, memA, pgdirA⟩, allocated, ran⟩ := bind_ok ran
  cases found with
  | none => simp [eNoMem] at ran
  | some page =>
      obtain ⟨⟨ret, buf⟩, got, ran⟩ := bind_ok ran
      by_cases bad : ret ≠ 0
      · simp only [if_pos bad, pure_ok, Except.ok.injEq, Prod.mk.injEq] at ran
        exact absurd ran.1 bad
      · obtain rfl := not_not.mp bad
        exact ⟨page, memA, pgdirA, buf, allocated, got, ran⟩

theorem build_bss_done (done : ¬ start < stop) (ran : buildBss mem pgdir perm stop start la (fuel + 1) = .ok (0, mem', pgdir')) :
    mem' = mem ∧ pgdir' = pgdir := by
  rw [buildBss, if_neg done] at ran
  simp only [pure_ok, Except.ok.injEq, Prod.mk.injEq] at ran
  obtain ⟨_, rfl, rfl⟩ := ran
  exact ⟨rfl, rfl⟩

theorem build_bss_round (before : start < stop) (ran : buildBss mem pgdir perm stop start la (fuel + 1) = .ok (0, mem', pgdir')) :
    ∃ page memA pgdirA, pgdirAllocPage mem pgdir la perm = .ok (some page, memA, pgdirA) ∧
      buildBss { memA with phys := memcpy memA.phys (roundAddr page start la) zeroBytes (roundSize start stop la) } pgdirA perm stop
        (start + roundSize start stop la) (la + pgSize) fuel = .ok (0, mem', pgdir') := by
  rw [buildBss, if_pos before] at ran
  obtain ⟨⟨found, memA, pgdirA⟩, allocated, ran⟩ := bind_ok ran
  cases found with
  | none => simp [eNoMem] at ran
  | some page =>
      obtain ⟨_, ran⟩ := check_bind_ok ran
      exact ⟨page, memA, pgdirA, allocated, ran⟩

end Rounds

-- How many pages the two loops go over when la stands at page vpn.
def textCount (start stop vpn : Nat) : Nat := if start < stop then (stop + pgSize - 1) / pgSize - vpn else 0

def bssCount (start stop vpn : Nat) : Nat := if start < stop then max 1 ((stop + pgSize - 1) / pgSize - vpn) else 0

-- More to do after a round: then start stands at the next page.
theorem round_next (start stop vpn : Nat) (before : start < stop) (upper : start < vpn * pgSize + pgSize)
    (more : start + roundSize start stop (vpn * pgSize) < stop) : start + roundSize start stop (vpn * pgSize) = (vpn + 1) * pgSize := by
  have ended := round_end start stop (vpn * pgSize) before upper
  by_cases far : stop < vpn * pgSize + pgSize
  · rw [if_pos far] at ended
    omega
  · rw [if_neg far] at ended
    rw [ended, Nat.succ_mul]

theorem text_count_round (start stop vpn : Nat) (before : start < stop) (lower : vpn * pgSize ≤ start) (upper : start < vpn * pgSize + pgSize) :
    textCount start stop vpn = 1 + textCount (start + roundSize start stop (vpn * pgSize)) stop (vpn + 1) := by
  have ended := round_end start stop (vpn * pgSize) before upper
  by_cases far : stop < vpn * pgSize + pgSize
  · rw [if_pos far] at ended
    rw [ended, textCount, textCount, if_pos before, if_neg (by omega)]
    simp only [pgSize] at *
    omega
  · rw [if_neg far] at ended
    rw [ended, textCount, textCount, if_pos before]
    by_cases more : vpn * pgSize + pgSize < stop
    · rw [if_pos more]
      simp only [pgSize] at *
      omega
    · rw [if_neg more]
      simp only [pgSize] at *
      omega

theorem bss_count_round (start stop vpn : Nat) (before : start < stop) (upper : start < vpn * pgSize + pgSize) :
    bssCount start stop vpn = 1 + bssCount (start + roundSize start stop (vpn * pgSize)) stop (vpn + 1) := by
  have ended := round_end start stop (vpn * pgSize) before upper
  by_cases far : stop < vpn * pgSize + pgSize
  · rw [if_pos far] at ended
    rw [ended, bssCount, bssCount, if_pos before, if_neg (by omega)]
    simp only [pgSize] at *
    omega
  · rw [if_neg far] at ended
    rw [ended, bssCount, bssCount, if_pos before]
    by_cases more : vpn * pgSize + pgSize < stop
    · rw [if_pos more]
      simp only [pgSize] at *
      omega
    · rw [if_neg more]
      simp only [pgSize] at *
      omega

theorem round_last (start stop size : Nat) (before : start < stop) (ends : start + size ≤ stop) :
    (if start + size < stop then stop else start + size) = if start < stop then stop else start := by
  rw [if_pos before]
  by_cases more : start + size < stop
  · rw [if_pos more]
  · rw [if_neg more]
    omega

theorem round_size_le (start stop vpn : Nat) (before : start < stop) (upper : start < vpn * pgSize + pgSize) :
    start + roundSize start stop (vpn * pgSize) ≤ stop := by
  have ended := round_end start stop (vpn * pgSize) before upper
  by_cases far : stop < vpn * pgSize + pgSize
  · rw [if_pos far] at ended
    omega
  · rw [if_neg far] at ended
    omega

section Loops

variable (foreign : Nat → Prop) (outside : Nat → Nat) (perm stop : Nat)

-- Reads that succeed keep start and la below the end of the tables.
theorem load_text_pages (fails : Failures) (file : ElfFile) (mem mem' : Mem) (pgdir pgdir' : Pgdir) (start vpn offset fuel start' la' : Nat)
    (image : Image mem pgdir foreign outside) (here : start < stop → vpn * pgSize ≤ start ∧ start < vpn * pgSize + pgSize)
    (near : start ≤ userTop + offset)
    (ran : loadText fails file mem pgdir perm stop start (vpn * pgSize) offset fuel = .ok (0, mem', pgdir', start', la')) :
    Image mem' pgdir' foreign outside ∧ start' = (if start < stop then stop else start) ∧
      la' = (vpn + textCount start stop vpn) * pgSize ∧ MapsPages pgdir pgdir' vpn (textCount start stop vpn) perm := by
  induction fuel generalizing mem pgdir start vpn offset with
  | zero => simp [loadText] at ran
  | succ fuel ih =>
      by_cases before : start < stop
      · obtain ⟨page, memA, pgdirA, buf, allocated, got, rest⟩ := load_text_round fails file mem mem' pgdir pgdir' perm stop start _ offset fuel
          start' la' before ran
        obtain ⟨below, size, _⟩ := load_icode_read_ok fails file _ _ _ buf got
        obtain ⟨lower, upper⟩ := here before
        have small : vpn < nPages := by
          simp only [nPages, pgSize, userTop, sfsMaxFileSize] at *
          omega
        have index := page_index vpn
        obtain ⟨imageA, given⟩ := given_image mem memA pgdir pgdirA foreign outside (vpn * pgSize) perm page image (by rwa [index]) allocated
        rw [index] at given
        have next : vpn * pgSize + pgSize = (vpn + 1) * pgSize := by rw [Nat.succ_mul]
        rw [next] at rest
        have imageW := image_phys memA pgdirA foreign outside imageA
          (memcpy memA.phys (roundAddr page start (vpn * pgSize)) buf (roundSize start stop (vpn * pgSize)))
        obtain ⟨image', started, reached, maps⟩ := ih _ pgdirA (start + roundSize start stop (vpn * pgSize)) (vpn + 1)
          (offset + roundSize start stop (vpn * pgSize)) imageW (fun more => by
            rw [round_next start stop vpn before upper more]
            exact ⟨Nat.le_refl _, Nat.lt_add_of_pos_right (by decide)⟩) (by omega) rest
        rw [text_count_round start stop vpn before lower upper]
        refine ⟨image', ?_, by rw [reached, Nat.add_assoc], maps_append pgdir pgdirA pgdir' vpn 1 _ perm
          (given_maps mem memA pgdir pgdirA vpn page perm given) maps⟩
        rw [started]
        exact round_last start stop _ before (round_size_le start stop vpn before upper)
      · obtain ⟨rfl, rfl, rfl, rfl⟩ := load_text_done fails file mem mem' pgdir pgdir' perm stop start _ offset fuel start' la' before ran
        simp only [textCount, if_neg before, Nat.add_zero]
        exact ⟨image, trivial, trivial, maps_nothing pgdir' vpn perm⟩

theorem build_bss_pages (mem mem' : Mem) (pgdir pgdir' : Pgdir) (start vpn fuel : Nat) (image : Image mem pgdir foreign outside)
    (here : start < stop → start < vpn * pgSize + pgSize ∧ vpn * pgSize < start + pgSize) (user : start < stop → stop ≤ userTop)
    (ran : buildBss mem pgdir perm stop start (vpn * pgSize) fuel = .ok (0, mem', pgdir')) :
    Image mem' pgdir' foreign outside ∧ MapsPages pgdir pgdir' vpn (bssCount start stop vpn) perm := by
  induction fuel generalizing mem pgdir start vpn with
  | zero => simp [buildBss] at ran
  | succ fuel ih =>
      by_cases before : start < stop
      · obtain ⟨page, memA, pgdirA, allocated, rest⟩ := build_bss_round mem mem' pgdir pgdir' perm stop start _ fuel before ran
        obtain ⟨upper, lower⟩ := here before
        have high := user before
        have small : vpn < nPages := by
          simp only [nPages, pgSize, userTop] at *
          omega
        have index := page_index vpn
        obtain ⟨imageA, given⟩ := given_image mem memA pgdir pgdirA foreign outside (vpn * pgSize) perm page image (by rwa [index]) allocated
        rw [index] at given
        have next : vpn * pgSize + pgSize = (vpn + 1) * pgSize := by rw [Nat.succ_mul]
        rw [next] at rest
        have imageW := image_phys memA pgdirA foreign outside imageA
          (memcpy memA.phys (roundAddr page start (vpn * pgSize)) zeroBytes (roundSize start stop (vpn * pgSize)))
        obtain ⟨image', maps⟩ := ih _ pgdirA (start + roundSize start stop (vpn * pgSize)) (vpn + 1) imageW (fun more => by
            rw [round_next start stop vpn before upper more]
            exact ⟨Nat.lt_add_of_pos_right (by decide), Nat.lt_add_of_pos_right (by decide)⟩) (fun _ => high) rest
        rw [bss_count_round start stop vpn before upper]
        exact ⟨image', maps_append pgdir pgdirA pgdir' vpn 1 _ perm (given_maps mem memA pgdir pgdirA vpn page perm given) maps⟩
      · obtain ⟨rfl, rfl⟩ := build_bss_done mem mem' pgdir pgdir' perm stop start _ fuel before ran
        simp only [bssCount, if_neg before]
        exact ⟨image, maps_nothing pgdir' vpn perm⟩

end Loops

theorem mm_map_user (mm mm' : Mm) (addr len vmFlags : Nat) (ran : mmMap mm addr len vmFlags = .ok (0, mm')) :
    UserAccess (roundDown addr pgSize) (mapStop addr len) := by
  by_contra user
  rw [mm_map_eq, if_pos user] at ran
  simp [eInval] at ran

theorem insert_vma_shape (mm mm' : Mm) (vma : Vma) (ran : insertVmaStruct mm vma = .ok mm') :
    mm'.pgdir = mm.pgdir ∧ ∀ other, other ∈ mm'.mmapList ↔ other = vma ∨ other ∈ mm.mmapList := by
  unfold insertVmaStruct at ran
  obtain ⟨_, ran⟩ := check_bind_ok ran
  obtain ⟨_, _, ran⟩ := bind_ok ran
  obtain ⟨_, _, ran⟩ := bind_ok ran
  obtain rfl := Except.ok.inj ran
  refine ⟨rfl, fun other => ?_⟩
  have whole := List.takeWhile_append_dropWhile (p := fun prev => !(vma.vmStart < prev.vmStart : Bool)) (l := mm.mmapList)
  have split : other ∈ mm.mmapList ↔ other ∈ mm.mmapList.takeWhile (fun prev => !(vma.vmStart < prev.vmStart : Bool)) ∨
      other ∈ mm.mmapList.dropWhile (fun prev => !(vma.vmStart < prev.vmStart : Bool)) := by
    rw [← List.mem_append, whole]
  rw [List.mem_append, List.mem_cons, split]
  exact or_left_comm

-- mm_map that succeeds puts one area in.
theorem mm_map_shape (mm mm' : Mm) (addr len vmFlags : Nat) (ran : mmMap mm addr len vmFlags = .ok (0, mm')) :
    mm'.pgdir = mm.pgdir ∧ ∀ other, other ∈ mm'.mmapList ↔
      other = ⟨roundDown addr pgSize, mapStop addr len, vmFlags⟩ ∨ other ∈ mm.mmapList := by
  have user := mm_map_user mm mm' addr len vmFlags ran
  rw [mm_map_eq, if_neg (not_not.mpr user)] at ran
  have cached : (findVma mm (roundDown addr pgSize)).2.pgdir = mm.pgdir ∧ (findVma mm (roundDown addr pgSize)).2.mmapList = mm.mmapList := by
    rw [find_vma_snd]
    cases (findVma mm (roundDown addr pgSize)).1 <;> exact ⟨rfl, rfl⟩
  split at ran
  · simp [eInval] at ran
  · obtain ⟨mm1, inserted, ran⟩ := bind_ok ran
    simp only [pure_ok, Except.ok.injEq, Prod.mk.injEq, true_and] at ran
    obtain rfl := ran
    obtain ⟨pgdir, members⟩ := insert_vma_shape _ mm1 _ inserted
    exact ⟨pgdir.trans cached.1, fun other => by rw [members, cached.2]⟩

theorem mm_map_or_eq (fails : Failures) (mm : Mm) (addr len vmFlags : Nat) : mmMapOr fails mm addr len vmFlags =
    if ¬ UserAccess (roundDown addr pgSize) (mapStop addr len) then .ok (eInval, mm, [])
    else if (findVma mm (roundDown addr pgSize)).1.any fun vma => vma.vmStart < mapStop addr len then
      .ok (eInval, (findVma mm (roundDown addr pgSize)).2, [])
    else if fails.vmaStruct (findVma mm (roundDown addr pgSize)).2 then .ok (eNoMem, (findVma mm (roundDown addr pgSize)).2, [])
    else do
      let mm' ← insertVmaStruct (findVma mm (roundDown addr pgSize)).2 ⟨roundDown addr pgSize, mapStop addr len, vmFlags⟩
      return (0, mm', [.vma ⟨roundDown addr pgSize, mapStop addr len, vmFlags⟩]) := rfl

-- mm_map where the kmalloc of the area works.
theorem mm_map_or_ok (fails : Failures) (mm mm' : Mm) (addr len vmFlags : Nat) (made : List Block)
    (ran : mmMapOr fails mm addr len vmFlags = .ok (0, mm', made)) :
    mmMap mm addr len vmFlags = .ok (0, mm') ∧ made = [.vma ⟨roundDown addr pgSize, mapStop addr len, vmFlags⟩] := by
  rw [mm_map_or_eq] at ran
  rw [mm_map_eq]
  by_cases user : UserAccess (roundDown addr pgSize) (mapStop addr len)
  · rw [if_neg (not_not.mpr user)] at ran ⊢
    by_cases taken : ((findVma mm (roundDown addr pgSize)).1.any fun vma => vma.vmStart < mapStop addr len) = true
    · rw [if_pos taken] at ran
      simp [eInval] at ran
    · rw [if_neg taken] at ran ⊢
      by_cases fail : fails.vmaStruct (findVma mm (roundDown addr pgSize)).2
      · rw [if_pos fail] at ran
        simp [eNoMem] at ran
      · rw [if_neg fail] at ran
        obtain ⟨mm1, inserted, ran⟩ := bind_ok ran
        simp only [pure_ok, Except.ok.injEq, Prod.mk.injEq, true_and] at ran
        obtain ⟨rfl, rfl⟩ := ran
        exact ⟨by rw [inserted]; rfl, rfl⟩
  · rw [if_pos user] at ran
    simp [eInval] at ran

theorem map_stop_le (addr len : Nat) (user : UserAccess (roundDown addr pgSize) (mapStop addr len)) :
    addr < userTop ∧ (addr + len) % 2 ^ 64 ≤ userTop := by
  obtain ⟨_, before, top⟩ := user
  have up := round_up_le ((addr + len) % 2 ^ 64)
  simp only [mapStop] at before top
  refine ⟨?_, by omega⟩
  by_contra high
  simp only [roundDown, pgSize, userTop] at *
  omega

-- The parts of a segment that was loaded.
theorem load_segment_parts (fails : Failures) (file : ElfFile) (mem mem' : Mem) (mm mm' : Mm) (ph : Proghdr) (made : List Block)
    (ran : loadSegment fails file mem mm ph = .ok (0, mem', mm', made)) :
    ph.pFilesz ≤ ph.pMemsz ∧ ∃ mm1 mem1 pgdir1 start la pgdir2, mmMap mm ph.pVa ph.pMemsz ph.vmFlags = .ok (0, mm1) ∧
      loadText fails file mem mm1.pgdir (pagePerm ph.vmFlags) ((ph.pVa + ph.pFilesz) % 2 ^ 64) ph.pVa (roundDown ph.pVa pgSize) ph.pOffset
        (loopFuel ph.pVa ((ph.pVa + ph.pFilesz) % 2 ^ 64)) = .ok (0, mem1, pgdir1, start, la) ∧
      buildBss mem1 pgdir1 (pagePerm ph.vmFlags) ((ph.pVa + ph.pMemsz) % 2 ^ 64) start la (loopFuel start ((ph.pVa + ph.pMemsz) % 2 ^ 64)) =
        .ok (0, mem', pgdir2) ∧ mm' = { mm1 with pgdir := pgdir2 } := by
  by_cases big : ph.pFilesz > ph.pMemsz
  · rw [loadSegment, if_pos big] at ran
    simp [eInvalElf] at ran
  · rw [loadSegment, if_neg big] at ran
    obtain ⟨⟨ret, mm1, blocks⟩, mapped, ran⟩ := bind_ok ran
    by_cases bad : ret ≠ 0
    · simp only [if_pos bad, pure_ok, Except.ok.injEq, Prod.mk.injEq] at ran
      exact absurd ran.1 bad
    · simp only [if_neg bad] at ran
      obtain ⟨⟨retT, mem1, pgdir1, start, la⟩, text, ran⟩ := bind_ok ran
      by_cases badT : retT ≠ 0
      · simp only [if_pos badT, pure_ok, Except.ok.injEq, Prod.mk.injEq] at ran
        exact absurd ran.1 badT
      · simp only [if_neg badT] at ran
        obtain ⟨⟨retB, mem2, pgdir2⟩, bss, ran⟩ := bind_ok ran
        simp only [pure_ok, Except.ok.injEq, Prod.mk.injEq] at ran
        obtain ⟨rfl, rfl, rfl, _⟩ := ran
        obtain rfl := not_not.mp bad
        obtain rfl := not_not.mp badT
        exact ⟨by omega, mm1, mem1, pgdir1, start, la, pgdir2, (mm_map_or_ok fails mm mm1 _ _ _ blocks mapped).1, text, bss, rfl⟩

-- The pages that the two loops of a segment go over.
def textPages (ph : Proghdr) : Nat := textCount ph.pVa ((ph.pVa + ph.pFilesz) % 2 ^ 64) (ph.pVa / pgSize)

def textStop (ph : Proghdr) : Nat :=
  if ph.pVa < (ph.pVa + ph.pFilesz) % 2 ^ 64 then (ph.pVa + ph.pFilesz) % 2 ^ 64 else ph.pVa

def segmentPages (ph : Proghdr) : Nat :=
  textPages ph + bssCount (textStop ph) ((ph.pVa + ph.pMemsz) % 2 ^ 64) (ph.pVa / pgSize + textPages ph)

-- Where the first loop stops: at most a page before the place of the second.
theorem text_stop_near (ph : Proghdr) : textStop ph < (ph.pVa / pgSize + textPages ph) * pgSize + pgSize ∧
    (ph.pVa / pgSize + textPages ph) * pgSize < textStop ph + pgSize := by
  simp only [textStop, textPages, textCount]
  by_cases some' : ph.pVa < (ph.pVa + ph.pFilesz) % 2 ^ 64
  · rw [if_pos some', if_pos some']
    generalize (ph.pVa + ph.pFilesz) % 2 ^ 64 = stop at some' ⊢
    simp only [pgSize]
    omega
  · rw [if_neg some', if_neg some']
    simp only [pgSize]
    omega

theorem load_segment_pages (foreign : Nat → Prop) (outside : Nat → Nat) (fails : Failures) (file : ElfFile) (mem mem' : Mem) (mm mm' : Mm)
    (ph : Proghdr) (made : List Block)
    (image : Image mem mm.pgdir foreign outside) (ran : loadSegment fails file mem mm ph = .ok (0, mem', mm', made)) :
    Image mem' mm'.pgdir foreign outside ∧ MapsPages mm.pgdir mm'.pgdir (ph.pVa / pgSize) (segmentPages ph) (pagePerm ph.vmFlags) := by
  obtain ⟨sizes, mm1, mem1, pgdir1, start, la, pgdir2, mapped, text, bss, rfl⟩ := load_segment_parts fails file mem mem' mm mm' ph made ran
  obtain ⟨low, high⟩ := map_stop_le _ _ (mm_map_user mm mm1 _ _ _ mapped)
  have same := (mm_map_shape mm mm1 _ _ _ mapped).1
  rw [same] at text
  have within : ph.pVa < ph.pVa / pgSize * pgSize + pgSize := by
    have rest := Nat.mod_lt ph.pVa (show 0 < pgSize from by decide)
    have page := Nat.div_add_mod' ph.pVa pgSize
    omega
  obtain ⟨image1, started, reached, maps1⟩ := load_text_pages foreign outside (pagePerm ph.vmFlags) _ fails file mem mem1 mm.pgdir pgdir1 ph.pVa
    (ph.pVa / pgSize) ph.pOffset _ start la image (fun _ => ⟨Nat.div_mul_le_self _ _, within⟩) (by omega) text
  rw [reached] at bss
  have near := text_stop_near ph
  have begins : start = textStop ph := started
  rw [begins] at bss
  obtain ⟨image2, maps2⟩ := build_bss_pages foreign outside (pagePerm ph.vmFlags) _ mem1 mem' pgdir1 pgdir2 (textStop ph) _ _ image1
    (fun _ => near) (fun _ => high) bss
  exact ⟨image2, maps_append mm.pgdir pgdir1 pgdir2 _ _ _ _ maps1 maps2⟩

end Ucore.Exec
