import Ucore.Vfs.SysfileRead
import Ucore.Vfs.Table

set_option autoImplicit false

namespace Ucore.Vfs

open Ucore.Lib
open Ucore.Vmm (Mm AccessLaw ByteAllowed KernAccess UserAccess)

section Reads

variable {P N : Type} [DecidableEq P]

-- A descriptor that is open for reading, with its regular file on a disk that works.
structure OpenRegular (v : Mounts N) (l : FileLayer P N (SfsData N)) (proc : P) (fd : Int) (index : Nat) (file : File N) (node : N) : Prop where
  found : fd2file (l.files proc) fd = .ok (.ok (index, file))
  readable : file.readable = true
  counted : 0 < file.openCount
  named : file.node = some node
  regular : v.kind node = .file
  counts : inodeCheck l.fs.counts node = .ok ()
  mounted : Sfs.Mounted l.data.sfs
  stored : Sfs.Stored l.data.sfs (l.data.inodes node).din
  works : l.data.sfs.dev.results = []

theorem fd2file_set (files : FilesStruct N) (fd : Int) (index : Nat) (file next : File N) (found : fd2file files fd = .ok (.ok (index, file)))
    (opened : next.status = .opened) : fd2file (setFile files index next) fd = .ok (.ok (index, next)) := by
  unfold fd2file at found ⊢
  by_cases inside : 0 ≤ fd ∧ fd < filesStructNentry
  · simp only [if_pos inside] at found ⊢
    obtain ⟨count, found⟩ := check_bind_ok found
    cases there : files.fdArray[fd.toNat]? with
    | none => simp [there] at found
    | some old =>
        rw [there] at found
        by_cases open' : old.status = .opened
        · simp only [open', if_true, pure_ok, Except.ok.injEq, Prod.mk.injEq] at found
          obtain ⟨rfl, rfl⟩ := found
          have within := List.getElem?_eq_some_iff.mp there |>.1
          simp only [decide_eq_true_eq] at count
          simp [setFile, count, within, opened]
        · simp [open'] at found
  · simp [inside] at found

namespace FileLayer

variable (v : Mounts N) (dev : DeviceRead N) (l : FileLayer P N (SfsData N)) (proc : P) (fd : Int) (index : Nat) (file : File N) (node : N)

-- The layer with the position of the descriptor moved on by count.
def advanced (count : Nat) : FileLayer P N (SfsData N) :=
  l.put proc l.fs.counts l.data index { file with pos := file.pos + count }

theorem advanced_open (open' : OpenRegular v l proc fd index file node) (count : Nat) :
    OpenRegular v (l.advanced proc index file count) proc fd index { file with pos := file.pos + count } node where
  found := by
    have opened := (fd2file_spec (l.files proc) fd index file open'.found).2
    have set := fd2file_set (l.files proc) fd index file { file with pos := file.pos + count } open'.found opened
    simpa [advanced, put, files, FsState.setFiles] using set
  readable := open'.readable
  counted := open'.counted
  named := open'.named
  regular := open'.regular
  counts := open'.counts
  mounted := open'.mounted
  stored := open'.stored
  works := open'.works

theorem advanced_advanced (first second : Nat) :
    (l.advanced proc index file first).advanced proc index { file with pos := file.pos + first } second =
      l.advanced proc index file (first + second) := by
  simp only [advanced, put, FsState.setFiles, files, Function.update_self, Function.update_idem, setFile, List.set_set, Nat.cast_add,
    Int.add_assoc]

end FileLayer

-- What a file has from pos on, for a read of len bytes.
def available (size : Nat) (pos : Int) (len : Nat) : Nat :=
  if 0 ≤ pos ∧ pos < Sfs.maxFileSize ∧ pos + len < 2 ^ 63 then Sfs.readCount size pos.toNat len else 0

variable [DecidableEq N]

-- A sum that is too large for off_t comes out below the position.
theorem off_wraps (pos : Int) (len : Nat) (low : 0 ≤ pos) (top : pos < Sfs.maxFileSize) (short : len < 2 ^ 64) (large : 2 ^ 63 ≤ pos + len) :
    Sfs.toOff (pos + len) < pos := by
  have limit : (Sfs.maxFileSize : Int) = 134217728 := rfl
  rw [limit] at top
  simp only [Sfs.toOff, Int.bmod]
  split <;> omega

theorem quiet_silent (sfs next : Sfs.SfsFs) (quiet : Sfs.Quiet sfs next) (works : sfs.dev.results = []) : next = sfs := by
  obtain ⟨results, same, silent⟩ := quiet
  rw [same, silent works, ← works]

section Read

variable (sfs : Sfs.SfsFs) (sin : Sfs.SfsInode) (mounted : Sfs.Mounted sfs) (stored : Sfs.Stored sfs sin.din) (works : sfs.dev.results = [])

include mounted stored works

-- sfs_io for a read, at any position.
theorem sfs_read_spec (buf : Bytes) (pos : Int) (len : Nat) (short : len < 2 ^ 64) :
    ∃ ret s, Sfs.sfsIo sfs sin buf pos len false = .ok (ret, s) ∧ s.alen = available sin.din.size pos len ∧
      (∀ k, s.buf k = if k < available sin.din.size pos len then Sfs.fileByte sfs sin.din (pos.toNat + k) else buf k) ∧
      s.sfs = sfs ∧ s.sin = sin ∧ ret ≤ 0 ∧ (0 < available sin.din.size pos len → ret = 0) := by
  have regular : decide (sin.din.type ≠ Sfs.typeDir) = true := by simp [stored.type, Sfs.typeFile, Sfs.typeDir]
  by_cases valid : 0 ≤ pos ∧ pos < Sfs.maxFileSize ∧ pos + len < 2 ^ 63
  · obtain ⟨low, top, fits⟩ := valid
    have same : ((pos.toNat : Nat) : Int) = pos := Int.toNat_of_nonneg low
    obtain ⟨ret, s, moved, reads, alen, within, buffer, inode, quiet, complete, success⟩ :=
      Sfs.read_nolock_spec sfs sin buf pos.toNat len mounted stored (by omega) (by omega)
    rw [same] at reads
    have zero := success works
    have count : moved = available sin.din.size pos len := by rw [complete zero, available, if_pos ⟨low, top, fits⟩]
    have bound : moved ≤ len := by
      refine within.trans ?_
      simp only [Sfs.readCount]
      omega
    refine ⟨ret, s, ?_, by rw [alen, count], ?_, quiet_silent sfs s.sfs quiet works, inode, le_of_eq zero, fun _ => zero⟩
    · simp [Sfs.sfsIo, reads, alen, bound]
    · intro k
      rw [buffer k, count]
  · have none : available sin.din.size pos len = 0 := if_neg valid
    have refused : pos < 0 ∨ (Sfs.maxFileSize : Int) ≤ pos ∨ Sfs.toOff (pos + len) < pos := by
      by_cases low : 0 ≤ pos
      · by_cases top : pos < Sfs.maxFileSize
        · refine .inr (.inr (off_wraps pos len low top short ?_))
          omega
        · omega
      · omega
    refine ⟨Sfs.eInval, ⟨buf, 0, sfs, sin⟩, ?_, none.symm, fun k => by simp [none], rfl, rfl, by decide, fun some => by omega⟩
    simp only [Sfs.sfsIo, Sfs.sfsIoNolock, regular, check_true, ok_bind, if_pos refused, pure_ok, Nat.zero_le, decide_true]

end Read

@[simp] theorem in_layer_value {F α : Type} (value : α) : (inLayer (.ok value) : Except (Panic F) α) = .ok value := rfl

namespace FileLayer

variable (v : Mounts N) (dev : DeviceRead N) (l : FileLayer P N (SfsData N)) (proc : P) (fd : Int) (index : Nat) (file : File N) (node : N)

-- What the file of the descriptor has from a position on.
def size (l : FileLayer P N (SfsData N)) (node : N) : Nat := (l.data.inodes node).din.size

def byte (l : FileLayer P N (SfsData N)) (node : N) (pos : Nat) : UInt8 := Sfs.fileByte l.data.sfs (l.data.inodes node).din pos

theorem file_read_spec (open' : OpenRegular v l proc fd index file node) (buf : Bytes) (len : Nat) (short : len < 2 ^ 64) :
    ∃ ret bytes, l.fileRead v dev proc fd buf len =
        .ok (ret, available (l.size node) file.pos len, bytes, l.advanced proc index file (available (l.size node) file.pos len)) ∧
      (∀ k, k < available (l.size node) file.pos len → bytes k = l.byte node (file.pos.toNat + k)) ∧ ret ≤ 0 ∧
      (0 < available (l.size node) file.pos len → ret = 0) := by
  obtain ⟨ret, s, reads, alen, buffer, disk, inode, negative, complete⟩ :=
    sfs_read_spec l.data.sfs (l.data.inodes node) open'.mounted open'.stored open'.works buf file.pos len short
  refine ⟨ret, s.buf, ?_, fun k inside => by rw [buffer k]; exact if_pos inside, negative, complete⟩
  have opened := (fd2file_spec (l.files proc) fd index file open'.found).2
  have counted := open'.counted
  have acquires : fdArrayAcquire file = .ok { file with openCount := file.openCount + 1 } := by simp [fdArrayAcquire, opened]
  have names : nodeOf { file with openCount := file.openCount + 1 } = .ok node := by simp [nodeOf, open'.named]
  have reading : vopRead v dev l.fs.counts l.data node buf file.pos len =
      .ok (ret, available (l.size node) file.pos len, s.buf, l.data) := by
    have below' : (below ((Sfs.sfsIo l.data.sfs (l.data.inodes node) buf file.pos len false).mapError .sfs) : Except (Panic ReadFault) _) =
        .ok (ret, s) := by simp [below, reads, Except.mapError]
    have known : vopOp v l.fs.counts node .vopRead = (.ok () : Except (Panic ReadFault) Unit) := by
      simp [vopOp, open'.regular, InodeKind.inOps, inLayer, open'.counts, Except.mapError]
    simp only [vopRead, known, ok_bind, open'.regular, below', disk, inode, alen, Function.update_eq_self, size, pure_ok]
  have releases : fdArrayRelease v l.fs.counts { file with pos := file.pos + (available (l.size node) file.pos len : Nat), openCount := file.openCount + 1 } =
      .ok (l.fs.counts, { file with pos := file.pos + (available (l.size node) file.pos len : Nat) }) := by
    have positive : 0 < file.openCount + 1 := by omega
    have held : file.openCount ≠ 0 := by omega
    simp [fdArrayRelease, opened, positive, held]
  simp only [fileRead, open'.found, in_layer_value, ok_bind, if_neg (not_not.mpr open'.readable), acquires, names, reading, if_pos opened, release,
    releases, pure_ok, advanced]

end FileLayer

-- The bytes of a range are given to the kernel, for a load or for a store; mm is none
-- for a kernel thread.
def RangeGiven (write : Bool) (mm : Option Mm) (base len : Nat) : Prop :=
  match mm with
  | some mm => UserAccess base (base + len) ∧ ∀ va, base ≤ va → va < base + len → ByteAllowed mm.mmapList write va
  | none => KernAccess base (base + len)

def MmSound (mm : Option Mm) : Prop := ∀ space ∈ mm, Vmm.Ordered space.mmapList ∧ space.Cached

theorem kern_top_fits : Vmm.kernTop < 2 ^ 64 := by decide

section Range

variable (write : Bool) (mm : Option Mm)

theorem range_given_positive (base len : Nat) (given : RangeGiven write mm base len) : 0 < len ∧ base + len < 2 ^ 64 := by
  cases mm with
  | some space =>
      obtain ⟨_, order, top⟩ := given.1
      simp only [Vmm.userTop] at top
      omega
  | none =>
      obtain ⟨_, order, top⟩ : KernAccess base (base + len) := given
      have small := kern_top_fits
      generalize Vmm.kernTop = stop at *
      omega

theorem range_given_split (base first second : Nat) (some' : 0 < first) (more : 0 < second) :
    RangeGiven write mm base (first + second) ↔ RangeGiven write mm base first ∧ RangeGiven write mm (base + first) second := by
  cases mm with
  | some space =>
      constructor
      · rintro ⟨⟨low, order, top⟩, bytes⟩
        refine ⟨⟨⟨low, by omega, by omega⟩, fun va above below => bytes va above (by omega)⟩, ⟨by omega, by omega, by omega⟩, ?_⟩
        exact fun va above below => bytes va (by omega) (by omega)
      · rintro ⟨⟨⟨low, order, _⟩, bytes⟩, ⟨_, _, top⟩, later⟩
        refine ⟨⟨low, by omega, by omega⟩, fun va above below => ?_⟩
        by_cases early : va < base + first
        · exact bytes va above early
        · exact later va (by omega) (by omega)
  | none =>
      constructor
      · rintro ⟨low, order, top⟩
        exact ⟨⟨low, by omega, by omega⟩, by omega, by omega, by omega⟩
      · rintro ⟨⟨low, order, _⟩, _, _, top⟩
        exact ⟨low, by omega, by omega⟩

theorem range_given_part (base len whole : Nat) (some' : 0 < len) (inside : len ≤ whole) (given : RangeGiven write mm base whole) :
    RangeGiven write mm base len := by
  by_cases all : len = whole
  · exact all ▸ given
  · obtain ⟨more, rfl⟩ := Nat.exists_eq_add_of_le inside
    exact ((range_given_split write mm base len more some' (by omega)).mp given).1

end Range

theorem kern_access_sum (addr len : UInt64) : KernAccess addr.toNat (addr + len).toNat ↔ KernAccess addr.toNat (addr.toNat + len.toNat) := by
  have sum : (addr + len).toNat = (addr.toNat + len.toNat) % 2 ^ 64 := UInt64.toNat_add addr len
  have boundAddr := addr.toNat_lt
  have boundLen := len.toNat_lt
  have small := kern_top_fits
  rw [sum]
  simp only [KernAccess]
  generalize Vmm.kernTop = stop at *
  generalize Vmm.kernBase = start at *
  omega

-- The check changes the cache of the space only.
theorem user_mem_check_given (mm : Option Mm) (sound : MmSound mm) (addr len : UInt64) (write : Bool) :
    ∃ allowed mm', Vmm.userMemCheck mm addr len write = .ok (allowed, mm') ∧ MmSound mm' ∧
      (allowed = true ↔ RangeGiven write mm addr.toNat len.toNat) ∧
      ∀ write base count, RangeGiven write mm' base count ↔ RangeGiven write mm base count := by
  cases mm with
  | some space =>
      obtain ⟨ordered, cached⟩ := sound space rfl
      obtain ⟨allowed, space', checked, same, cached', _, law⟩ := Vmm.user_mem_check_spec space ordered cached addr len write
      refine ⟨allowed, some space', checked, ?_, law.trans ⟨fun held => ⟨held.user, held.bytes⟩, fun held => ⟨held.1, held.2⟩⟩,
        fun write base count => ?_⟩
      · rintro other ⟨⟩
        exact ⟨same ▸ ordered, cached'⟩
      · simp only [RangeGiven, same]
  | none =>
      refine ⟨decide (KernAccess addr.toNat (addr + len).toNat), none, rfl, sound, ?_, fun _ _ _ => Iff.rfl⟩
      rw [decide_eq_true_eq, kern_access_sum]
      exact Iff.rfl

theorem copy_to_user_spec (mm : Option Mm) (sound : MmSound mm) (user : Bytes) (dst : UInt64) (src : Bytes) (len : UInt64) :
    ∃ allowed mm', copyToUser mm user dst src len = .ok (allowed, mm', if allowed then memcpy user dst.toNat src len.toNat else user) ∧
      MmSound mm' ∧ (allowed = true ↔ RangeGiven true mm dst.toNat len.toNat) ∧
      ∀ write base count, RangeGiven write mm' base count ↔ RangeGiven write mm base count := by
  obtain ⟨allowed, mm', checked, after⟩ := user_mem_check_given mm sound dst len true
  refine ⟨allowed, mm', ?_, after⟩
  cases allowed <;> simp [copyToUser, below, checked, Except.mapError]

-- How much is left of the file behind a position.
def restOf (size : Nat) (pos : Int) : Nat := if 0 ≤ pos ∧ pos < Sfs.maxFileSize then size - pos.toNat else 0

theorem available_short (size : Nat) (pos : Int) (len : Nat) (fits : pos + len < 2 ^ 63) :
    available size pos len = min (restOf size pos) len := by
  unfold available restOf Sfs.readCount
  by_cases valid : 0 ≤ pos ∧ pos < Sfs.maxFileSize
  · rw [if_pos ⟨valid.1, valid.2, fits⟩, if_pos valid]
    omega
  · rw [if_neg (fun all => valid ⟨all.1, all.2.1⟩), if_neg valid]
    omega

theorem available_chunk (size : Nat) (pos : Int) (len : Nat) (short : len ≤ 4096) : available size pos len = min (restOf size pos) len := by
  by_cases fits : pos + len < 2 ^ 63
  · exact available_short size pos len fits
  · have limit : (Sfs.maxFileSize : Int) = 134217728 := rfl
    have high : ¬ (0 ≤ pos ∧ pos < Sfs.maxFileSize) := by omega
    rw [available, if_neg (fun all => fits all.2.2), restOf, if_neg high]
    omega

theorem rest_advanced (size : Nat) (pos : Int) (count : Nat) (small : size < Sfs.maxFileSize) (inside : count ≤ restOf size pos) :
    restOf size (pos + count) = restOf size pos - count ∧ (0 < count → (pos + count).toNat = pos.toNat + count) := by
  unfold restOf at inside ⊢
  by_cases valid : 0 ≤ pos ∧ pos < Sfs.maxFileSize
  · rw [if_pos valid] at inside ⊢
    by_cases later : 0 ≤ pos + count ∧ pos + count < Sfs.maxFileSize
    · rw [if_pos later]
      omega
    · rw [if_neg later]
      omega
  · rw [if_neg valid] at inside ⊢
    have none : count = 0 := by omega
    subst none
    simp [valid]

namespace Reader

variable (v : Mounts N) (dev : DeviceRead N) (proc : P) (fd : Int) (index : Nat) (node : N)

-- The bytes of a descriptor from its position on.
def content (r : Reader P N) (node : N) (pos : Int) : Bytes := fun k => r.layer.byte node (pos.toNat + k)

-- How the loop ends: k bytes have gone to the user, and the position has moved on by
-- lost more. That is none unless a store is refused.
structure Looped (r r' : Reader P N) (proc : P) (index : Nat) (file : File N) (node : N) (base len : Nat) (ret : Int) (k lost : Nat) : Prop where
  user : r'.user = memcpy r.user base (r.content node file.pos) k
  negative : ret ≤ 0
  position : r'.layer = r.layer.advanced proc index file (k + lost)
  whole : len = 0 ∨ RangeGiven true r.mm base len → k = len ∧ lost = 0
  partly : ¬ (len = 0 ∨ RangeGiven true r.mm base len) → k < len ∧ 0 < lost

omit [DecidableEq N] in
theorem advanced_none (l : FileLayer P N (SfsData N)) (file : File N) (open' : OpenRegular v l proc fd index file node) :
    l.advanced proc index file 0 = l := by
  have there := (fd2file_spec (l.files proc) fd index file open'.found).1
  obtain ⟨within, same⟩ := List.getElem?_eq_some_iff.mp there
  have whole : setFile (l.files proc) index file = l.files proc := by
    simp only [setFile, ← same, List.set_getElem_self]
  have kept : ({ file with pos := file.pos + ((0 : Nat) : Int) } : File N) = file := by simp
  rw [FileLayer.advanced, kept, FileLayer.put, whole]
  simp [FsState.setFiles, FileLayer.files]

theorem chunk_length (len : UInt64) : (if iobufSize > len then len else iobufSize).toNat = min 4096 len.toNat := by
  have whole : iobufSize.toNat = 4096 := rfl
  split
  case isTrue big =>
    have order := UInt64.lt_iff_toNat_lt.mp big
    omega
  case isFalse fits =>
    have order : ¬ len.toNat < iobufSize.toNat := fun big => fits (UInt64.lt_iff_toNat_lt.mpr big)
    omega

section Chunk

variable (r r' : Reader P N) (file : File N) (base len moved : Nat) (bytes : Bytes) (some' : 0 < moved) (inside : moved ≤ len)

include some' inside

omit [DecidableEq N] in
theorem looped_refused (refused : ¬ RangeGiven true r.mm base moved) (space : Option Mm) :
    Looped r ⟨r.layer.advanced proc index file moved, space, r.user⟩ proc index file node base len eInval 0 moved where
  user := (memcpy_none _ _ _).symm
  negative := by decide
  position := by rw [Nat.zero_add]
  whole := by
    intro allowed
    cases allowed with
    | inl empty => omega
    | inr whole => exact absurd (range_given_part true r.mm base moved len some' inside whole) refused
  partly := fun _ => ⟨by omega, some'⟩

-- A chunk that was stored, and the rest of the loop.
omit [DecidableEq N] in
theorem looped_more (allowed : RangeGiven true r.mm base moved) (space : Option Mm)
    (like : ∀ write start count, RangeGiven write space start count ↔ RangeGiven write r.mm start count)
    (brought : ∀ k, k < moved → bytes k = r.content node file.pos k) (next : (file.pos + (moved : Nat)).toNat = file.pos.toNat + moved)
    (ret : Int) (k lost : Nat)
    (rest : Looped ⟨r.layer.advanced proc index file moved, space, memcpy r.user base bytes moved⟩ r' proc index
      { file with pos := file.pos + moved } node (base + moved) (len - moved) ret k lost) :
    Looped r r' proc index file node base len ret (moved + k) lost where
  user := by
    have later : content ⟨r.layer.advanced proc index file moved, space, memcpy r.user base bytes moved⟩ node (file.pos + moved) =
        (r.content node file.pos).from moved := by
      funext i
      simp only [content, next, Bytes.from, Nat.add_assoc]
      rfl
    rw [rest.user, later, memcpy_congr r.user bytes (r.content node file.pos) base moved brought, memcpy_append]
  negative := rest.negative
  position := by rw [rest.position, FileLayer.advanced_advanced, Nat.add_assoc]
  whole := by
    intro held
    have done := rest.whole (by
      by_cases last : len - moved = 0
      · exact .inl last
      · have whole := held.resolve_left (by omega)
        rw [show len = moved + (len - moved) by omega] at whole
        exact .inr ((like _ _ _).mpr ((range_given_split true r.mm base moved (len - moved) some' (by omega)).mp whole).2))
    omega
  partly := by
    intro refused
    have stops := rest.partly (by
      rintro (last | later)
      · exact refused (.inr ((show moved = len by omega) ▸ allowed))
      · have more := (range_given_positive _ _ _ _ later).1
        have whole := (range_given_split true r.mm base moved (len - moved) some' more).mpr ⟨allowed, (like _ _ _).mp later⟩
        rw [show moved + (len - moved) = len by omega] at whole
        exact refused (.inr whole))
    omega

end Chunk

omit [DecidableEq N] in
theorem looped_nothing (r : Reader P N) (file : File N) (open' : OpenRegular v r.layer proc fd index file node) (base : Nat) (ret : Int)
    (negative : ret ≤ 0) : Looped r r proc index file node base 0 ret 0 0 where
  user := (memcpy_none _ _ _).symm
  negative := negative
  position := (advanced_none v proc fd index node r.layer file open').symm
  whole := fun _ => ⟨rfl, rfl⟩
  partly := fun refused => absurd (.inl rfl) refused

theorem read_loop_spec (fuel : Nat) (r : Reader P N) (file : File N) (open' : OpenRegular v r.layer proc fd index file node)
    (sound : MmSound r.mm) (buffer : Bytes) (copied : Nat) (base len : UInt64)
    (enough : min (restOf (r.layer.size node) file.pos) len.toNat + 4095 < fuel * 4096) :
    ∃ ret k lost r', readLoop v dev proc fd buffer 0 copied base len r fuel = .ok (ret, copied + k, r') ∧
      Looped r r' proc index file node base.toNat (min (restOf (r.layer.size node) file.pos) len.toNat) ret k lost := by
  induction fuel generalizing r file buffer copied base len with
  | zero => omega
  | succ fuel ih =>
      rw [readLoop]
      by_cases done : len = 0
      · subst done
        have empty : min (restOf (r.layer.size node) file.pos) (0 : UInt64).toNat = 0 := Nat.min_zero _
        rw [empty]
        exact ⟨0, 0, 0, r, rfl, looped_nothing v proc fd index node r file open' base.toNat 0 (le_refl _)⟩
      · have positive : 0 < len.toNat := Nat.pos_of_ne_zero fun zero => done (UInt64.toNat.inj zero)
        have bounded := len.toNat_lt
        generalize chunk : (if iobufSize > len then len else iobufSize) = alen
        have alenNat : alen.toNat = min 4096 len.toNat := chunk ▸ chunk_length len
        obtain ⟨ret, bytes, reads, content, negative, complete⟩ :=
          FileLayer.file_read_spec v dev r.layer proc fd index file node open' buffer alen.toNat alen.toNat_lt
        rw [available_chunk _ _ _ (by omega)] at reads content complete
        generalize count : min (restOf (r.layer.size node) file.pos) alen.toNat = moved at reads content complete
        have movedNat : (UInt64.ofNat moved).toNat = moved := by
          rw [UInt64.toNat_ofNat']
          exact Nat.mod_eq_of_lt (by omega)
        rw [if_neg done]
        simp only [reads, ok_bind]
        by_cases nothing : moved = 0
        · subst nothing
          have empty : min (restOf (r.layer.size node) file.pos) len.toNat = 0 := by omega
          rw [empty, advanced_none v proc fd index node r.layer file open']
          exact ⟨ret, 0, 0, r, rfl, looped_nothing v proc fd index node r file open' base.toNat ret negative⟩
        · have some' : 0 < moved := Nat.pos_of_ne_zero nothing
          have given : UInt64.ofNat moved ≠ 0 := by
            intro zero
            rw [zero] at movedNat
            exact nothing movedNat.symm
          have zero := complete some'
          subst zero
          obtain ⟨allowed, space, copies, soundNext, law, like⟩ := copy_to_user_spec r.mm sound r.user base bytes (UInt64.ofNat moved)
          rw [movedNat] at copies law
          simp only [if_pos given, copies, ok_bind]
          cases allowed with
          | false =>
              have refused : ¬ RangeGiven true r.mm base.toNat moved := fun held => by simpa using law.mpr held
              exact ⟨eInval, 0, moved, _, rfl, looped_refused proc index node r file base.toNat _ moved some' (by omega) refused space⟩
          | true =>
              have passed := law.mp rfl
              have within : UInt64.ofNat moved ≤ len := UInt64.le_iff_toNat_le.mpr (by omega)
              have small : r.layer.size node < Sfs.maxFileSize := by
                have bound := Sfs.stored_small _ _ open'.stored
                simp only [FileLayer.size, Sfs.maxFileSize]
                omega
              obtain ⟨restNext, posNext⟩ := rest_advanced (r.layer.size node) file.pos moved small (by omega)
              have baseNext : (base + UInt64.ofNat moved).toNat = base.toNat + moved := by
                have top := (range_given_positive _ _ _ _ passed).2
                rw [UInt64.toNat_add, movedNat, Nat.mod_eq_of_lt top]
              have lenNext : (len - UInt64.ofNat moved).toNat = len.toNat - moved := by
                rw [UInt64.toNat_sub_of_le _ _ within, movedNat]
              have sizeNext : (r.layer.advanced proc index file moved).size node = r.layer.size node := rfl
              obtain ⟨ret, k, lost, r', loops, looped⟩ := ih ⟨r.layer.advanced proc index file moved, space, memcpy r.user base.toNat bytes moved⟩
                { file with pos := file.pos + moved } (FileLayer.advanced_open v r.layer proc fd index file node open' moved) soundNext bytes
                (copied + moved) (base + UInt64.ofNat moved) (len - UInt64.ofNat moved) (by
                  simp only [sizeNext, restNext, lenNext]
                  omega)
              simp only [sizeNext, restNext, lenNext, baseNext] at looped
              rw [show min (restOf (r.layer.size node) file.pos - moved) (len.toNat - moved) =
                min (restOf (r.layer.size node) file.pos) len.toNat - moved by omega] at looped
              refine ⟨ret, moved + k, lost, r', ?_, ?_⟩
              · simp only [if_true, within, decide_true, check_true, ok_bind, ne_eq, not_true_eq_false, if_false]
                rw [loops, Nat.add_assoc]
              · exact looped_more proc index node r r' file base.toNat _ moved bytes some' (by omega) passed space like
                  content (posNext some') ret k lost looped

-- What sysfile_read owes where one file_read of the whole length moves count bytes:
-- k of them are delivered, all unless the user's memory refuses them, and the value
-- returned and the position of the descriptor go with k.
structure AsOneRead (r r' : Reader P N) (proc : P) (fd : Int) (index : Nat) (file : File N) (base count : Nat) (bytes : Bytes) (ret : Int)
    (k : Nat) : Prop where
  user : r'.user = memcpy r.user base bytes k
  whole : k = count ∨ k < count ∧ ¬ RangeGiven true r.mm base count
  returned : if k = 0 then ret ≤ 0 else ret = k
  position : fd2file (r'.layer.files proc) fd = .ok (.ok (index, { file with pos := file.pos + k }))

-- The bytes that there are in the file for the read can all be stored, and their
-- range is none that overflows off_t.
def Storable (r : Reader P N) (file : File N) (node : N) (base len : UInt64) : Prop :=
  min (restOf (r.layer.size node) file.pos) len.toNat = 0 ∨
    file.pos + len.toNat < 2 ^ 63 ∧ RangeGiven true r.mm base.toNat (min (restOf (r.layer.size node) file.pos) len.toNat)

theorem copied_int (k : Nat) (small : k ≤ 1036 * 4096) : (k : Int).bmod (2 ^ 32) = k := Int.bmod_eq_of_le (by omega) (by omega)

theorem sysfile_read_loop (r : Reader P N) (file : File N) (open' : OpenRegular v r.layer proc fd index file node)
    (sound : MmSound r.mm) (base len : UInt64) (buffer : Bytes) :
    ∃ (ret : Int) (k lost : Nat) (r' : Reader P N), sysfileRead v dev r proc fd base len (some buffer) = .ok (if k = 0 then ret else k, r') ∧
      Looped r r' proc index file node base.toNat (min (restOf (r.layer.size node) file.pos) len.toNat) ret k lost := by
  by_cases done : len = 0
  · subst done
    have empty : min (restOf (r.layer.size node) file.pos) (0 : UInt64).toNat = 0 := Nat.min_zero _
    rw [empty]
    exact ⟨0, 0, 0, r, rfl, looped_nothing v proc fd index node r file open' base.toNat 0 (le_refl _)⟩
  · have bounded := len.toNat_lt
    have whole : iobufSize.toNat = 4096 := rfl
    obtain ⟨ret, k, lost, r', loops, looped⟩ := read_loop_spec v dev proc fd index node (len.toNat / iobufSize.toNat + 2) r file open' sound buffer 0
      base len (by rw [whole]; omega)
    have tested : (r.layer.fileTestfd proc fd true false : Except (Panic ReadFault) Bool) = .ok true := by
      simp [FileLayer.fileTestfd, open'.found, in_layer_value, open'.readable]
    have within : k ≤ min (restOf (r.layer.size node) file.pos) len.toNat := by
      by_cases held : min (restOf (r.layer.size node) file.pos) len.toNat = 0 ∨ RangeGiven true r.mm base.toNat (min (restOf (r.layer.size node) file.pos) len.toNat)
      · exact le_of_eq (looped.whole held).1
      · exact le_of_lt (looped.partly held).1
    have small : k ≤ 1036 * 4096 := by
      have bound := Sfs.stored_small _ _ open'.stored
      have rest : restOf (r.layer.size node) file.pos ≤ r.layer.size node := by
        unfold restOf
        split <;> omega
      exact within.trans ((Nat.min_le_left _ _).trans (rest.trans bound))
    refine ⟨ret, k, lost, r', ?_, looped⟩
    simp only [sysfileRead, if_neg done, tested, ok_bind, not_true_eq_false, if_false, loops, Nat.zero_add, pure_ok]
    by_cases none : k = 0
    · simp [none]
    · simp only [ne_eq, none, not_false_eq_true, if_true, if_false, copied_int k small]

section Storable

variable (r r' : Reader P N) (file : File N) (open' : OpenRegular v r.layer proc fd index file node) (base len : UInt64) (bytes : Bytes)
  (ret : Int) (k lost : Nat)
  (looped : Looped r r' proc index file node base.toNat (min (restOf (r.layer.size node) file.pos) len.toNat) ret k lost)

include open' looped

omit [DecidableEq N] in
theorem looped_position : fd2file (r'.layer.files proc) fd = .ok (.ok (index, { file with pos := file.pos + (k + lost : Nat) })) := by
  rw [looped.position]
  exact (FileLayer.advanced_open v r.layer proc fd index file node open' (k + lost)).found

-- The position says how many bytes have been taken from the file, so that a store
-- that was refused shows.
omit [DecidableEq N] in
theorem as_one_read_storable (delivered : Nat) (one : AsOneRead r r' proc fd index file base.toNat
      (available (r.layer.size node) file.pos len.toNat) bytes (if k = 0 then ret else k) delivered) : Storable r file node base len := by
  have same : delivered = k + lost := by
    have equal := one.position.symm.trans (looped_position v proc fd index node r r' file open' base len ret k lost looped)
    simp only [Except.ok.injEq, Prod.mk.injEq, File.mk.injEq, true_and, and_true] at equal
    omega
  have answer := one.returned
  by_cases held : min (restOf (r.layer.size node) file.pos) len.toNat = 0 ∨
      RangeGiven true r.mm base.toNat (min (restOf (r.layer.size node) file.pos) len.toNat)
  · obtain ⟨all, none⟩ := looped.whole held
    cases held with
    | inl empty => exact .inl empty
    | inr allowed =>
        refine .inr ⟨?_, allowed⟩
        by_contra large
        have nothing : available (r.layer.size node) file.pos len.toNat = 0 := if_neg fun valid => large valid.2.2
        have positive := (range_given_positive _ _ _ _ allowed).1
        rcases one.whole with equal | ⟨less, _⟩
        · omega
        · omega
  · obtain ⟨_, more⟩ := looped.partly held
    rw [if_neg (by omega)] at answer
    by_cases none : k = 0
    · have negative := looped.negative
      rw [if_pos none] at answer
      omega
    · rw [if_neg none] at answer
      omega

omit [DecidableEq N] in
theorem storable_as_one_read (content : ∀ i, i < available (r.layer.size node) file.pos len.toNat → bytes i = r.layer.byte node (file.pos.toNat + i))
    (storable : Storable r file node base len) : AsOneRead r r' proc fd index file base.toNat
      (available (r.layer.size node) file.pos len.toNat) bytes (if k = 0 then ret else k) k := by
  obtain ⟨all, none⟩ := looped.whole (storable.imp id fun both => both.2)
  have count : available (r.layer.size node) file.pos len.toNat = min (restOf (r.layer.size node) file.pos) len.toNat := by
    cases storable with
    | inl empty =>
        have below : available (r.layer.size node) file.pos len.toNat ≤ min (restOf (r.layer.size node) file.pos) len.toNat := by
          by_cases fits : file.pos + len.toNat < 2 ^ 63
          · exact le_of_eq (available_short _ _ _ fits)
          · exact le_of_eq_of_le (if_neg fun valid => fits valid.2.2) (Nat.zero_le _)
        omega
    | inr both => exact available_short _ _ _ both.1
  have position := looped_position v proc fd index node r r' file open' base len ret k lost looped
  refine ⟨?_, .inl (by omega), ?_, by rw [position, none]; rfl⟩
  · rw [looped.user]
    exact memcpy_congr _ _ _ _ _ fun i inside => (content i (by omega)).symm
  · by_cases zero : k = 0
    · rw [if_pos zero, if_pos zero]
      exact looped.negative
    · rw [if_neg zero, if_neg zero]

end Storable

theorem sysfile_read_iff (r : Reader P N) (file : File N) (open' : OpenRegular v r.layer proc fd index file node)
    (sound : MmSound r.mm) (base len : UInt64) (buffer whole : Bytes) :
    ∃ one count bytes layer ret r', r.layer.fileRead v dev proc fd whole len.toNat = .ok (one, count, bytes, layer) ∧
      sysfileRead v dev r proc fd base len (some buffer) = .ok (ret, r') ∧
      ((∃ k, AsOneRead r r' proc fd index file base.toNat count bytes ret k) ↔ Storable r file node base len) := by
  obtain ⟨one, bytes, reads, content, _, _⟩ :=
    FileLayer.file_read_spec v dev r.layer proc fd index file node open' whole len.toNat len.toNat_lt
  obtain ⟨ret, k, lost, r', returns, looped⟩ := sysfile_read_loop v dev proc fd index node r file open' sound base len buffer
  refine ⟨one, _, bytes, _, _, r', reads, returns, ?_, fun storable => ⟨k, ?_⟩⟩
  · rintro ⟨delivered, one⟩
    exact as_one_read_storable v proc fd index node r r' file open' base len bytes ret k lost looped delivered one
  · exact storable_as_one_read v proc fd index node r r' file open' base len bytes ret k lost looped content storable

end Reader

section Example

-- The written file of 50000 bytes, open as descriptor 3.
def oneFile : Mounts (Fin 1) := ⟨fun _ => .file, fun _ => 0, []⟩

def openFile : File (Fin 1) := ⟨.opened, true, false, 0, some 0, 1⟩

def openFiles : FilesStruct (Fin 1) := ⟨none, (filesCreate (Fin 1)).fdArray.set 3 openFile, 1⟩

def oneReader : Reader (Fin 1) (Fin 1) :=
  ⟨⟨⟨⟨fun _ => 1, fun _ => 1⟩, none, fun _ => openFiles, fun _ => true, [0]⟩, ⟨Sfs.writtenVolume.sfs, Sfs.writtenVolume.files⟩⟩,
    some Vmm.threeUserAreas, zeroBytes⟩

def noDevice : DeviceRead (Fin 1) := fun _ _ _ _ _ => .error .assertFailed

theorem one_reader_open : OpenRegular oneFile oneReader.layer 0 3 3 openFile 0 := by
  have wellFormed := Sfs.written_well_formed
  have map := wellFormed.maps 0
  have facts : (Sfs.writtenVolume.files 0).din.size = 50000 ∧ (Sfs.writtenVolume.files 0).din.blocks = 13 ∧ Sfs.writtenVolume.sfs.dev.results = [] := by
    decide +kernel
  obtain ⟨size, blocks, works⟩ := facts
  have covered : (Sfs.writtenVolume.files 0).din.size ≤ (Sfs.writtenVolume.files 0).din.blocks * Sfs.blkSize := by
    rw [size, blocks]
    decide
  exact ⟨rfl, rfl, by decide, rfl, rfl, rfl, wellFormed.mounted, ⟨map.type, map.bounded, covered, Sfs.map_in_use _ _ _ map⟩, works⟩

theorem one_reader_sound : MmSound oneReader.mm := by
  rintro space ⟨⟩
  exact ⟨Vmm.three_user_areas_ordered, Vmm.three_user_areas_cached⟩

theorem sysfile_read_one : ∃ one count bytes layer ret r',
    oneReader.layer.fileRead oneFile noDevice 0 3 zeroBytes (0x1000 : UInt64).toNat = .ok (one, count, bytes, layer) ∧
      oneReader.sysfileRead oneFile noDevice 0 3 0x802000 0x1000 (some zeroBytes) = .ok (ret, r') ∧
      ((∃ k, Reader.AsOneRead oneReader r' 0 3 3 openFile (0x802000 : UInt64).toNat count bytes ret k) ↔ oneReader.Storable openFile 0 0x802000 0x1000) :=
  Reader.sysfile_read_iff oneFile noDevice 0 3 3 0 oneReader openFile one_reader_open one_reader_sound 0x802000 0x1000 zeroBytes zeroBytes

theorem beyond_area_refused : ¬ RangeGiven true oneReader.mm 0x802000 8192 := by
  intro allowed
  obtain ⟨⟨vma, listed, has, flag⟩, _⟩ := (show UserAccess 0x802000 (0x802000 + 8192) ∧ _ from allowed).2 0x803000 (by decide) (by decide)
  have areas : Vmm.threeUserAreas.mmapList = [⟨0x800000, 0x802000, Vmm.vmRead⟩, ⟨0x802000, 0x803000, Vmm.vmRead ||| Vmm.vmWrite⟩,
      ⟨0x7ff00000, 0x80000000, Vmm.vmRead ||| Vmm.vmWrite ||| Vmm.vmStack⟩] := rfl
  rw [areas] at listed
  simp only [List.mem_cons, List.not_mem_nil, or_false] at listed
  rcases listed with rfl | rfl | rfl
  · exact absurd has (by decide)
  · exact absurd has (by decide)
  · exact absurd has (by decide)

-- The second chunk has been read when its store is refused: 4096 bytes are
-- delivered, and the position is 8192.
theorem sysfile_read_skips : ∃ one count bytes layer ret r',
    oneReader.layer.fileRead oneFile noDevice 0 3 zeroBytes (0x2000 : UInt64).toNat = .ok (one, count, bytes, layer) ∧
      oneReader.sysfileRead oneFile noDevice 0 3 0x802000 0x2000 (some zeroBytes) = .ok (ret, r') ∧ ret = 4096 ∧
      ((r'.layer.files 0).fdArray[3]?).map File.pos = some 8192 ∧
      ¬ ∃ k, Reader.AsOneRead oneReader r' 0 3 3 openFile (0x802000 : UInt64).toNat count bytes ret k := by
  obtain ⟨one, bytes, whole, _, _, _⟩ :=
    FileLayer.file_read_spec oneFile noDevice oneReader.layer 0 3 3 openFile 0 one_reader_open zeroBytes (0x2000 : UInt64).toNat (by decide)
  obtain ⟨ret, k, lost, r', chunks, looped⟩ :=
    Reader.sysfile_read_loop oneFile noDevice 0 3 3 0 oneReader openFile one_reader_open one_reader_sound 0x802000 0x2000 zeroBytes
  have ends : (oneReader.sysfileRead oneFile noDevice 0 3 0x802000 0x2000 (some zeroBytes)).toOption.map
      (fun result => (result.1, ((result.2.layer.files 0).fdArray[3]?).map File.pos)) = some (4096, some 8192) := by
    decide +kernel
  rw [chunks] at ends
  simp only [Except.toOption, Option.map_some, Option.some.injEq, Prod.mk.injEq] at ends
  have count' : min (restOf (oneReader.layer.size 0) openFile.pos) (0x2000 : UInt64).toNat = 8192 := by decide +kernel
  refine ⟨one, _, bytes, _, _, r', whole, chunks, ends.1, ends.2, ?_⟩
  rintro ⟨delivered, good⟩
  have storable := Reader.as_one_read_storable oneFile 0 3 3 0 oneReader r' openFile one_reader_open 0x802000 0x2000 bytes ret k lost looped delivered good
  rw [Reader.Storable, count'] at storable
  rcases storable with empty | ⟨_, allowed⟩
  · exact absurd empty (by decide)
  · exact beyond_area_refused allowed

end Example

end Reads

end Ucore.Vfs
