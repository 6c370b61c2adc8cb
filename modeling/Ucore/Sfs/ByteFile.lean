import Ucore.Lib.Run
import Ucore.Sfs.FilePanics

set_option autoImplicit false

namespace Ucore.Sfs

open Ucore.Lib

variable {n : Nat}

-- What a regular file is for: an array of bytes. A write may begin up to the end.
def writeBytes (file : List UInt8) (offset : Nat) (data : List UInt8) : List UInt8 :=
  file.take offset ++ data ++ file.drop (offset + data.length)

-- A range that does not fit in an off_t is empty.
def readBytes (file : List UInt8) (offset : Int) (len : Nat) : List UInt8 :=
  if 0 ≤ offset ∧ offset + len < 2 ^ 63 then (file.drop offset.toNat).take len else []

theorem write_bytes_length (file data : List UInt8) (offset : Nat) (inside : offset ≤ file.length) :
    (writeBytes file offset data).length = max file.length (offset + data.length) := by
  simp only [writeBytes, List.length_append, List.length_take, List.length_drop]
  omega

-- The last bytes written at a position, and the old ones elsewhere.
theorem write_bytes_get (file data : List UInt8) (offset pos : Nat) (inside : offset ≤ file.length) :
    (writeBytes file offset data)[pos]? =
      if offset ≤ pos ∧ pos < offset + data.length then data[pos - offset]? else file[pos]? := by
  have front : (file.take offset).length = offset := by simp [inside]
  rw [writeBytes, List.append_assoc]
  by_cases before : pos < offset
  · rw [List.getElem?_append_left (by omega), List.getElem?_take_of_lt before, if_neg (by omega)]
  · rw [List.getElem?_append_right (by omega), front]
    by_cases within : pos < offset + data.length
    · rw [List.getElem?_append_left (by omega), if_pos ⟨by omega, within⟩]
    · rw [List.getElem?_append_right (by omega), List.getElem?_drop, if_neg (by omega)]
      congr 1
      omega

def bytesOf (buf : Bytes) (len : Nat) : List UInt8 := (List.range len).map buf

theorem bytes_of_get (buf : Bytes) (len pos : Nat) : (bytesOf buf len)[pos]? = if pos < len then some (buf pos) else none := by
  by_cases inside : pos < len
  · simp [bytesOf, inside]
  · simp [bytesOf, inside]

theorem bytes_of_length (buf : Bytes) (len : Nat) : (bytesOf buf len).length = len := by simp [bytesOf]

structure FileIo (n : Nat) where
  file : Fin n
  buf : Bytes
  offset : Int
  resid : Nat
  write : Bool

def FileIo.call (io : FileIo n) : FileCall := .io io.buf io.offset io.resid io.write

-- How many bytes a call reports, and the bytes that a read brings.
abbrev Moved := Nat × List UInt8

def byteStep (files : Fin n → List UInt8) (io : FileIo n) : Moved × (Fin n → List UInt8) :=
  if io.write then
    ((io.resid, []), Function.update files io.file (writeBytes (files io.file) io.offset.toNat (bytesOf io.buf io.resid)))
  else
    let data := readBytes (files io.file) io.offset io.resid
    ((data.length, data), files)

def Volume.ioStep (v : Volume n) (io : FileIo n) : Option (Moved × Volume n) :=
  (io.call.run v.sfs (v.files io.file)).toOption.map fun (reply, sfs, sin) =>
    ((reply.alen, if io.write then [] else bytesOf reply.buf reply.alen), v.after io.file sfs sin)

def Volume.content (v : Volume n) (file : Fin n) : List UInt8 :=
  bytesOf (fileByte v.sfs (v.files file).din) (v.files file).din.size

-- A write begins at or before the end, stays in the mapped blocks and finds the
-- free blocks it takes; the length of a read is a size_t.
def IoAllowed (v : Volume n) (io : FileIo n) : Prop :=
  if io.write then
    0 ≤ io.offset ∧ io.offset ≤ (v.files io.file).din.size ∧ io.offset + io.resid ≤ 1036 * 4096 ∧
      needBlocks (v.files io.file).din (blocksOf (io.offset + io.resid).toNat - (v.files io.file).din.blocks) ≤
        v.sfs.super.unusedBlocks
  else io.resid < 2 ^ 64

def WithinSize (v : Volume n) (io : FileIo n) : Prop := io.write = true → io.offset + io.resid ≤ (v.files io.file).din.size

instance (v : Volume n) (io : FileIo n) : Decidable (IoAllowed v io) := by
  unfold IoAllowed
  infer_instance

instance (v : Volume n) (io : FileIo n) : Decidable (WithinSize v io) :=
  inferInstanceAs (Decidable (io.write = true → io.offset + io.resid ≤ (v.files io.file).din.size))

theorem content_get (v : Volume n) (file : Fin n) (pos : Nat) : (v.content file)[pos]? =
    if pos < (v.files file).din.size then some (fileByte v.sfs (v.files file).din pos) else none :=
  bytes_of_get _ _ pos

theorem content_length (v : Volume n) (file : Fin n) : (v.content file).length = (v.files file).din.size := bytes_of_length _ _

theorem io_step_ok (v : Volume n) (io : FileIo n) (ret : Int) (s : IoState)
    (ran : sfsIo v.sfs (v.files io.file) io.buf io.offset io.resid io.write = .ok (ret, s)) :
    v.ioStep io = some ((s.alen, if io.write then [] else bytesOf s.buf s.alen), v.after io.file s.sfs s.sin) := by
  simp [Volume.ioStep, FileIo.call, FileCall.run, ran, Except.toOption]

-- The bytes of the other files are in blocks that the call keeps.
theorem other_content (v : Volume n) (reserved : Nat → Prop) (file : Fin n) (s' : SfsFs) (i' : SfsInode)
    (effect : Effect (v.others reserved file) v.sfs s' (v.files file) i') (other : Fin n) (apart : other ≠ file)
    (enough : (v.files other).din.size ≤ (v.files other).din.blocks * 4096) : (v.after file s' i').content other = v.content other := by
  have slots := slot_frame v.sfs s' (v.files other).din fun placed =>
    effect.step.data _ (Or.inr ⟨other, apart, Or.inl ⟨rfl, placed⟩⟩)
  rw [Volume.content, after_other v file s' i' other apart]
  refine List.map_congr_left fun pos inside => ?_
  have below : pos / 4096 < (v.files other).din.blocks := by
    simp only [List.mem_range] at inside
    omega
  simp only [fileByte, Volume.after, slots]
  rw [effect.step.data _ (Or.inr ⟨other, apart, Or.inr ⟨_, below, rfl⟩⟩)]

theorem after_content (v : Volume n) (reserved : Nat → Prop) (file : Fin n) (s' : SfsFs) (i' : SfsInode) (bytes : List UInt8)
    (covered : v.Covered) (effect : Effect (v.others reserved file) v.sfs s' (v.files file) i')
    (same : bytesOf (fileByte s' i'.din) i'.din.size = bytes) :
    (v.after file s' i').content = Function.update v.content file bytes := by
  funext other
  by_cases here : other = file
  · subst here
    rw [Function.update_self, Volume.content, after_self v other s' i' other rfl]
    exact same
  · rw [Function.update_of_ne here, other_content v reserved file s' i' effect other here (covered other)]

section Steps

variable (v : Volume n) (reserved : Nat → Prop) (io : FileIo n) (image : v.Image reserved) (covered : v.Covered)

include image covered

-- A write that moves something and is allowed moves everything.
theorem write_moves (writing : io.write = true) (allowed : IoAllowed v io) (some : io.resid ≠ 0) :
    ∃ s' m, sfsIo v.sfs (v.files io.file) io.buf io.offset io.resid true = .ok (0, s') ∧
      Grown (v.others reserved io.file) v.sfs s'.sfs (v.files io.file) s'.sin m ∧
      Copied true ⟨io.buf, 0, v.sfs, v.files io.file⟩ s' io.offset.toNat io.resid ∧ s'.alen = io.resid ∧
      (0 < m → (v.files io.file).din.blocks + m ≤ blocksOf (io.offset + io.resid).toNat) := by
  simp only [IoAllowed, if_pos writing] at allowed
  obtain ⟨nonneg, inside, mapped, plenty⟩ := allowed
  have enough := covered io.file
  have size : (maxFileSize : Int) = 134217728 := rfl
  have whole : toOff (io.offset + io.resid) = io.offset + io.resid := by
    rw [toOff, Int.bmod_def]
    split <;> omega
  have moves : Moves io.offset io.resid := ⟨nonneg, by omega, by rw [whole]; omega⟩
  have last : ioEnd io.offset io.resid = (io.offset + io.resid).toNat := by
    rw [ioEnd, whole]
    omega
  rcases io_write_spec _ v.sfs (v.files io.file) io.buf io.offset io.resid (Or.inl image.wellFormed.superBlock)
    image.wellFormed.mounted (image.wellFormed.maps io.file) moves (by omega) with
    ⟨_, exceeds, _⟩ | ⟨ret, s', m, ran, grown, copied, _, covers, complete, short⟩
  · simp only [last, roundUpDiv] at exceeds
    omega
  · rw [last] at covers complete short
    have zero : ret = 0 := by
      by_contra bad
      obtain ⟨_, behind, missing⟩ := short image.noFault bad
      have mono := need_mono (v.files io.file).din (m + 1)
        (blocksOf (io.offset + io.resid).toNat - (v.files io.file).din.blocks) (by simp only [blocksOf]; omega)
      omega
    have all := (complete zero).1
    have alen : s'.alen = io.resid := by omega
    rw [zero] at ran
    rw [alen] at copied
    exact ⟨s', m, ran, grown, copied, alen, covers⟩

theorem write_refines (writing : io.write = true) (allowed : IoAllowed v io) :
    StepRefines Volume.ioStep byteStep Volume.content v io ↔ io.offset + io.resid ≤ (v.files io.file).din.size := by
  have bounds := allowed
  simp only [IoAllowed, if_pos writing] at bounds
  obtain ⟨nonneg, inside, _, _⟩ := bounds
  have length := content_length v io.file
  have enough := covered io.file
  by_cases some : io.resid = 0
  · have idle : ¬ Moves io.offset io.resid := fun moves => by
      have forward := moves_end io.offset io.resid moves
      simp only [ioEnd, some, toOff, Int.bmod_def] at forward
      obtain ⟨_, small, _⟩ := moves
      have size : (maxFileSize : Int) = 134217728 := rfl
      split at forward <;> omega
    obtain ⟨ret, done⟩ := io_idle v.sfs (v.files io.file) io.buf io.offset io.resid io.write (image.wellFormed.maps io.file).type idle
    refine ⟨fun _ => by omega, fun _ => ⟨_, _, io_step_ok v io ret _ done, ?_⟩⟩
    have still : v.after io.file v.sfs (v.files io.file) = v := by simp [Volume.after]
    have same : writeBytes (v.content io.file) io.offset.toNat [] = v.content io.file := by simp [writeBytes]
    simp [byteStep, writing, some, still, bytesOf, same]
  · obtain ⟨s', m, ran, grown, copied, alen, covers⟩ := write_moves v reserved io image covered writing allowed some
    rw [← writing] at ran
    have stepped := io_step_ok v io 0 s' ran
    have target : byteStep v.content io = ((io.resid, []), Function.update v.content io.file
        (writeBytes (v.content io.file) io.offset.toNat (bytesOf io.buf io.resid))) := by
      simp [byteStep, writing]
    constructor
    · rintro ⟨out, next, taken, abstract⟩
      rw [stepped, Option.some.injEq, Prod.mk.injEq] at taken
      obtain ⟨_, rfl⟩ := taken
      rw [target, Prod.mk.injEq] at abstract
      have longer := congrArg List.length (congrFun abstract.2 io.file)
      rw [Function.update_self, write_bytes_length _ _ _ (by omega), bytes_of_length, content_length, content_length,
        after_self v io.file s'.sfs s'.sin io.file rfl, grown.size] at longer
      omega
    · intro within
      refine ⟨_, _, stepped, ?_⟩
      rw [target, Prod.mk.injEq]
      refine ⟨by simp [alen, writing], (after_content v reserved io.file s'.sfs s'.sin _ covered grown.effect ?_).symm⟩
      refine List.ext_getElem? fun pos => ?_
      rw [bytes_of_get, grown.size, write_bytes_get _ _ _ _ (by omega), bytes_of_length, content_get, bytes_of_get]
      by_cases below : pos < (v.files io.file).din.size
      · have written := ((copied.written rfl).2 pos (by simp only; omega))
        simp only [Nat.zero_add] at written
        rw [if_pos below, written]
        by_cases moved : io.offset.toNat ≤ pos ∧ pos < io.offset.toNat + io.resid
        · rw [if_pos moved, if_pos moved, if_pos (by omega)]
        · rw [if_neg moved, if_neg moved, if_pos below]
      · rw [if_neg below, if_neg (by omega), if_neg below]

theorem read_refines (reading : io.write = false) (allowed : IoAllowed v io) :
    StepRefines Volume.ioStep byteStep Volume.content v io := by
  simp only [IoAllowed, reading, Bool.false_eq_true, if_false] at allowed
  have length := content_length v io.file
  have enough := covered io.file
  have wf := image.wellFormed
  have bounded := (wf.maps io.file).bounded
  have size : (maxFileSize : Int) = 134217728 := rfl
  have target : byteStep v.content io = (((readBytes (v.content io.file) io.offset io.resid).length,
      readBytes (v.content io.file) io.offset io.resid), v.content) := by
    simp [byteStep, reading]
  have whole : 0 ≤ io.offset → io.offset + io.resid < 2 ^ 63 → toOff (io.offset + io.resid) = io.offset + io.resid := by
    intro nonneg small
    rw [toOff, Int.bmod_def]
    split <;> omega
  have still : v.after io.file v.sfs (v.files io.file) = v := by simp [Volume.after]
  -- Nothing moves where the abstract range has no bytes.
  have nothing : ∀ ret, sfsIo v.sfs (v.files io.file) io.buf io.offset io.resid io.write = .ok (ret, ⟨io.buf, 0, v.sfs, v.files io.file⟩) →
      readBytes (v.content io.file) io.offset io.resid = [] → StepRefines Volume.ioStep byteStep Volume.content v io := by
    intro ret done none
    refine ⟨_, _, io_step_ok v io ret _ done, ?_⟩
    rw [target, none, still]
    simp [reading, bytesOf]
  by_cases moves : Moves io.offset io.resid
  · obtain ⟨nonneg, small, forward⟩ := moves
    have fits : io.offset + io.resid < 2 ^ 63 := by
      by_contra large
      rw [toOff, Int.bmod_def] at forward
      split at forward <;> omega
    have here := whole nonneg fits
    have last : ioEnd io.offset io.resid = min (io.offset + io.resid).toNat maxFileSize := by
      rw [ioEnd, here]
      omega
    by_cases atEnd : ((v.files io.file).din.size : Int) ≤ io.offset
    · refine nothing 0 ?_ ?_
      · rw [reading]
        exact io_read_end _ _ _ _ _ (wf.maps io.file).type ⟨nonneg, small, forward⟩ atEnd
      · rw [readBytes, if_pos ⟨nonneg, fits⟩, List.drop_eq_nil_of_le (by omega), List.take_nil]
    · rcases io_read_spec _ v.sfs (v.files io.file) io.buf io.offset io.resid (Or.inl wf.superBlock) wf.mounted (wf.maps io.file)
        ⟨nonneg, small, forward⟩ (by omega) (by omega) with ⟨_, exceeds⟩ | ⟨ret, s', m, ran, grown, copied, covers, complete, success⟩
      · omega
      · have zero := success image.noFault enough
        have all := complete zero
        rw [last] at all
        rw [← reading] at ran
        refine ⟨_, _, io_step_ok v io ret _ ran, ?_⟩
        have kept : bytesOf (fileByte s'.sfs s'.sin.din) s'.sin.din.size = v.content io.file := by
          rw [grown.size]
          refine List.map_congr_left fun pos inside => (copied.read rfl).1 pos ?_
          simp only [List.mem_range] at inside
          simp only
          omega
        have data : readBytes (v.content io.file) io.offset io.resid = bytesOf s'.buf s'.alen := by
          rw [readBytes, if_pos ⟨nonneg, fits⟩]
          refine List.ext_getElem? fun k => ?_
          rw [bytes_of_get]
          by_cases within : k < s'.alen
          · rw [if_pos within, List.getElem?_take_of_lt (by omega), List.getElem?_drop, content_get, if_pos (by omega),
              (copied.read rfl).2 k (by simp only; omega), if_pos (by simp only; omega)]
            rfl
          · rw [if_neg within]
            refine List.getElem?_eq_none ?_
            simp only [List.length_take, List.length_drop]
            omega
        rw [target, after_content v reserved io.file _ _ _ covered grown.effect kept, Function.update_eq_self, data, bytes_of_length]
        simp [reading]
  · obtain ⟨ret, done⟩ := io_idle v.sfs (v.files io.file) io.buf io.offset io.resid io.write (wf.maps io.file).type moves
    refine nothing ret done ?_
    rw [readBytes]
    split
    · rename_i inRange
      have here := whole inRange.1 inRange.2
      by_cases small : io.offset < maxFileSize
      · have none : io.resid = 0 := by
          by_contra some
          exact moves ⟨inRange.1, small, by rw [here]; omega⟩
        rw [none, List.take_zero]
      · rw [List.drop_eq_nil_of_le (by omega), List.take_nil]
    · rfl

end Steps

theorem io_step_plain (v : Volume n) (io : FileIo n) : plainStep Volume.ioStep v io = v.step (io.file, io.call) := by
  cases ran : io.call.run v.sfs (v.files io.file) with
  | error fault => simp [plainStep, Volume.ioStep, Volume.step, ran, Except.toOption]
  | ok result => simp [plainStep, Volume.ioStep, Volume.step, ran, Except.toOption, Volume.after]

-- Reads and writes that keep inside the size are those of the byte arrays, in
-- all that they return and leave; one write past the size is not.
theorem byte_file_refinement (v : Volume n) (reserved : Nat → Prop) (ios : List (FileIo n)) (image : v.Image reserved)
    (covered : v.Covered) (allowed : Throughout (plainStep Volume.ioStep) IoAllowed v ios) :
    Refines Volume.ioStep byteStep Volume.content v ios ↔ Throughout (plainStep Volume.ioStep) WithinSize v ios := by
  rw [refines_iff]
  refine throughout_congr _ (fun v => v.Image reserved ∧ v.Covered) IoAllowed _ _ ?_ ?_ ios v ⟨image, covered⟩ allowed
  · rintro v io next ⟨image, covered⟩ _ stepped
    rw [io_step_plain] at stepped
    exact ⟨step_image v next reserved _ image stepped, step_covered v next reserved _ image covered stepped⟩
  · rintro v io ⟨image, covered⟩ allowed
    cases writing : io.write with
    | true =>
        rw [write_refines v reserved io image covered writing allowed]
        exact ⟨fun within _ => within, fun within => within writing⟩
    | false =>
        exact ⟨fun _ writes => absurd (writes.symm.trans writing) (by decide), fun _ => read_refines v reserved io image covered writing allowed⟩

-- Over the edge of the first block of a file of 5000 bytes.
def edgeIos : List (FileIo 2) :=
  [⟨0, fun k => UInt8.ofNat k, 4090, 12, true⟩, ⟨1, zeroBytes, 0, 7, false⟩, ⟨0, zeroBytes, 4088, 2000, false⟩]

theorem byte_file_refinement_edge : ∃ v, run Volume.step (freshVolume 2) [(0, .truncfile 5000)] = some v ∧
    Refines Volume.ioStep byteStep Volume.content v edgeIos := by
  cases ran : run Volume.step (freshVolume 2) [(0, .truncfile 5000)] with
  | none =>
      have returns : (run Volume.step (freshVolume 2) [(0, .truncfile 5000)]).isSome := by decide +kernel
      simp [ran] at returns
  | some v =>
      have facts : ∀ reached, run Volume.step (freshVolume 2) [(0, .truncfile 5000)] = some reached →
          Throughout (plainStep Volume.ioStep) IoAllowed reached edgeIos ∧ Throughout (plainStep Volume.ioStep) WithinSize reached edgeIos := by
        decide +kernel
      obtain ⟨allowed, within⟩ := facts v ran
      obtain ⟨image, covered⟩ := run_covered _ v (freshReserved 2) _ (fresh_image 2 (by decide)) (fresh_covered 2) ran
      exact ⟨v, rfl, (byte_file_refinement v (freshReserved 2) edgeIos image covered allowed).mpr within⟩

-- Ten bytes written to an empty file: all are reported, and the size stays 0.
theorem write_keeps_size : IoAllowed (freshVolume 1) ⟨0, zeroBytes, 0, 10, true⟩ ∧
    ((sfsIo (freshVolume 1).sfs ((freshVolume 1).files 0) zeroBytes 0 10 true).toOption.map fun (ret, s) =>
      (ret, s.alen, s.sin.din.size)) = some (0, 10, 0) ∧ max ((freshVolume 1).files 0).din.size (0 + 10) ≠ 0 := by
  decide +kernel

end Ucore.Sfs
