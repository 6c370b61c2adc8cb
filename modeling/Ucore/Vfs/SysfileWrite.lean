import Ucore.Sfs.WriteExact
import Ucore.Vfs.SysfileExact

set_option autoImplicit false

namespace Ucore.Vfs

open Ucore.Lib
open Ucore.Vmm (Mm userMemCheck ByteAllowed KernAccess UserAccess)

section Writes

variable {P N : Type} [DecidableEq P] [DecidableEq N]

-- A write to a device, which is not about files.
abbrev DeviceWrite (N : Type) := SfsData N → N → Bytes → Int → Nat → Except ReadFault (Int × Nat × SfsData N)

-- vop_write: the code and the bytes moved.
def vopWrite (v : Mounts N) (dev : DeviceWrite N) (c : Counts N) (data : SfsData N) (node : N) (buf : Bytes) (pos : Int) (len : Nat) :
    Except (Panic ReadFault) (Int × Nat × SfsData N) := do
  vopOp v c node .vopWrite
  match v.kind node with
  | .device => below (dev data node buf pos len)
  | _ => do
      let (ret, s) ← below ((Sfs.sfsIo data.sfs (data.inodes node) buf pos len true).mapError .sfs)
      return (ret, s.alen, ⟨s.sfs, Function.update data.inodes node s.sin⟩)

namespace FileLayer

-- file_write, with the bytes that it moves.
def fileWrite (v : Mounts N) (dev : DeviceWrite N) (l : FileLayer P N (SfsData N)) (proc : P) (fd : Int) (buf : Bytes) (len : Nat) :
    Except (Panic ReadFault) (Int × Nat × FileLayer P N (SfsData N)) := do
  match ← inLayer (fd2file (l.files proc) fd) with
  | .error ret => return (ret, 0, l)
  | .ok (index, file) =>
      if ¬ file.writable then return (eInval, 0, l)
      else do
        let file ← inLayer (fdArrayAcquire file)
        let node ← inLayer (nodeOf file)
        let (ret, copied, data) ← vopWrite v dev l.fs.counts l.data node buf file.pos len
        let file := if file.status = .opened then { file with pos := file.pos + copied } else file
        let (ret, l) ← l.release v proc index file data ret
        return (ret, copied, l)

end FileLayer

def copyFromUser (mm : Option Mm) (dst : Bytes) (user : Bytes) (src len : UInt64) (writable : Bool) :
    Except (Panic ReadFault) (Bool × Option Mm × Bytes) := do
  let (allowed, mm) ← below ((userMemCheck mm src len writable).mapError .vmm)
  return if allowed then (true, mm, memcpy dst 0 (user.from src.toNat) len.toNat) else (false, mm, dst)

namespace Reader

-- The loop of sysfile_write. Its fuel is one round for each full buffer and two more.
def writeLoop (v : Mounts N) (dev : DeviceWrite N) (proc : P) (fd : Int) (buffer : Bytes) (ret : Int) (copied : Nat) (base len : UInt64)
    (r : Reader P N) : Nat → Except (Panic ReadFault) (Int × Nat × Reader P N)
  | 0 => .error (.below .outOfFuel)
  | fuel + 1 =>
      if len = 0 then .ok (ret, copied, r)
      else do
        let alen := if iobufSize > len then len else iobufSize
        let (taken, mm, buffer) ← copyFromUser r.mm buffer r.user base alen false
        let r := { r with mm := mm }
        let ret := if taken then ret else eInval
        if ret = 0 then do
          let (ret, moved, layer) ← r.layer.fileWrite v dev proc fd buffer alen.toNat
          let r := { r with layer := layer }
          let alen := UInt64.ofNat moved
          if alen ≠ 0 then do
            check (alen ≤ len) (.below .assertFailed)
            if ret ≠ 0 then return (ret, copied + moved, r)
            else writeLoop v dev proc fd buffer ret (copied + moved) (base + alen) (len - alen) r fuel
          else return (ret, copied, r)
        else return (ret, copied, r)

-- sysfile_write; buffer is what kmalloc returns.
def sysfileWrite (v : Mounts N) (dev : DeviceWrite N) (r : Reader P N) (proc : P) (fd : Int) (base len : UInt64) (buffer : Option Bytes) :
    Except (Panic ReadFault) (Int × Reader P N) := do
  if len = 0 then return (0, r)
  else if ¬ (← r.layer.fileTestfd proc fd false true) then return (eInval, r)
  else
    match buffer with
    | none => return (eNoMem, r)
    | some buffer => do
        let (ret, copied, r) ← writeLoop v dev proc fd buffer 0 0 base len r (len.toNat / iobufSize.toNat + 2)
        return (if copied ≠ 0 then ((copied : Int).bmod (2 ^ 32), r) else (ret, r))

end Reader

end Writes

theorem copy_from_user_spec (mm : Option Mm) (sound : MmSound mm) (dst user : Bytes) (src len : UInt64) (writable : Bool) :
    ∃ allowed mm', copyFromUser mm dst user src len writable =
        .ok (allowed, mm', if allowed then memcpy dst 0 (user.from src.toNat) len.toNat else dst) ∧
      MmSound mm' ∧ (allowed = true ↔ RangeGiven writable mm src.toNat len.toNat) ∧
      ∀ write base count, RangeGiven write mm' base count ↔ RangeGiven write mm base count := by
  obtain ⟨allowed, mm', checked, after⟩ := user_mem_check_given mm sound src len writable
  refine ⟨allowed, mm', ?_, after⟩
  cases allowed <;> simp [copyFromUser, below, checked, Except.mapError]

section Writes

variable {P N : Type} [DecidableEq P] [DecidableEq N]

-- A descriptor that is open for writing, with its regular file on a disk that works;
-- its position is in a block that the file has or at the next one.
structure OpenWriter (v : Mounts N) (others : Nat → Prop) (l : FileLayer P N (SfsData N)) (proc : P) (fd : Int) (index : Nat) (file : File N)
    (node : N) (pos : Nat) : Prop where
  found : fd2file (l.files proc) fd = .ok (.ok (index, file))
  writable : file.writable = true
  counted : 0 < file.openCount
  named : file.node = some node
  regular : v.kind node = .file
  counts : inodeCheck l.fs.counts node = .ok ()
  mounted : Sfs.Mounted l.data.sfs
  superBlock : others 0
  map : Sfs.FileMap l.data.sfs (l.data.inodes node).din others
  works : l.data.sfs.dev.results = []
  place : file.pos = pos
  near : pos / 4096 ≤ (l.data.inodes node).din.blocks

namespace FileLayer

-- The layer with the file as it is after a write of count bytes.
def stored (l : FileLayer P N (SfsData N)) (proc : P) (index : Nat) (file : File N) (node : N) (sfs : Sfs.SfsFs) (sin : Sfs.SfsInode) (count : Nat) :
    FileLayer P N (SfsData N) :=
  l.put proc l.fs.counts ⟨sfs, Function.update l.data.inodes node sin⟩ index { file with pos := file.pos + count }

section Descriptor

variable (v : Mounts N) (dev : DeviceWrite N) (others : Nat → Prop) (l : FileLayer P N (SfsData N)) (proc : P) (fd : Int) (index : Nat) (file : File N)
  (node : N) (pos : Nat) (open' : OpenWriter v others l proc fd index file node pos)

include open'

theorem stored_open (sfs : Sfs.SfsFs) (sin : Sfs.SfsInode) (bytes : Bytes) (len count m : Nat) (some' : 0 < count)
    (written : Sfs.Written others l.data.sfs sfs (l.data.inodes node) sin bytes pos len count m) :
    OpenWriter v others (l.stored proc index file node sfs sin count) proc fd index { file with pos := file.pos + count } node (pos + count) := by
  have inode : (l.stored proc index file node sfs sin count).data.inodes node = sin := by
    simp only [stored, put, Function.update_self]
  have effect := written.grown.effect
  constructor
  · have opened := (fd2file_spec (l.files proc) fd index file open'.found).2
    have set := fd2file_set (l.files proc) fd index file { file with pos := file.pos + count } open'.found opened
    simpa [stored, put, files, FsState.setFiles] using set
  · exact open'.writable
  · exact open'.counted
  · exact open'.named
  · exact open'.regular
  · exact open'.counts
  · exact effect.mounted
  · exact open'.superBlock
  · rw [inode]
    exact effect.map
  · exact effect.step.results open'.works
  · simp [open'.place]
  · rw [inode, written.grown.blocks]
    have covered := written.covered some'
    omega

theorem file_write_spec (buf : Bytes) (len : Nat) (some' : 0 < len) (fits : pos + len ≤ 1036 * 4096) :
    ∃ ret sfs sin count m, l.fileWrite v dev proc fd buf len = .ok (ret, count, l.stored proc index file node sfs sin count) ∧
      Sfs.Written others l.data.sfs sfs (l.data.inodes node) sin buf pos len count m ∧
      (count = len ∧ ret = 0 ∨ count < len ∧ ret = Sfs.eNoMem ∧ Sfs.DiskFull l.data.sfs (l.data.inodes node) pos len count m) := by
  obtain ⟨ret, s, m, writes, written, ends⟩ := Sfs.io_write_chunk others l.data.sfs (l.data.inodes node) buf pos len open'.superBlock open'.mounted
    open'.map open'.works some' open'.near fits
  refine ⟨ret, s.sfs, s.sin, s.alen, m, ?_, written, ends⟩
  have opened := (fd2file_spec (l.files proc) fd index file open'.found).2
  have counted := open'.counted
  have acquires : fdArrayAcquire file = .ok { file with openCount := file.openCount + 1 } := by simp [fdArrayAcquire, opened]
  have names : nodeOf { file with openCount := file.openCount + 1 } = .ok node := by simp [nodeOf, open'.named]
  have writing : vopWrite v dev l.fs.counts l.data node buf file.pos len =
      .ok (ret, s.alen, ⟨s.sfs, Function.update l.data.inodes node s.sin⟩) := by
    have below' : (below ((Sfs.sfsIo l.data.sfs (l.data.inodes node) buf file.pos len true).mapError .sfs) : Except (Panic ReadFault) _) =
        .ok (ret, s) := by simp [below, open'.place, writes, Except.mapError]
    have known : vopOp v l.fs.counts node .vopWrite = (.ok () : Except (Panic ReadFault) Unit) := by
      simp [vopOp, open'.regular, InodeKind.inOps, inLayer, open'.counts, Except.mapError]
    simp only [vopWrite, known, ok_bind, open'.regular, below', pure_ok]
  have releases : fdArrayRelease v l.fs.counts { file with pos := file.pos + (s.alen : Nat), openCount := file.openCount + 1 } =
      .ok (l.fs.counts, { file with pos := file.pos + (s.alen : Nat) }) := by
    have positive : 0 < file.openCount + 1 := by omega
    have held : file.openCount ≠ 0 := by omega
    simp [fdArrayRelease, opened, positive, held]
  simp only [fileWrite, open'.found, in_layer_value, ok_bind, if_neg (not_not.mpr open'.writable), acquires, names, writing, if_pos opened, release,
    releases, pure_ok, stored]

end Descriptor

theorem stored_stored (l : FileLayer P N (SfsData N)) (proc : P) (index : Nat) (file : File N) (node : N) (sfs last : Sfs.SfsFs) (sin end' : Sfs.SfsInode)
    (first second : Nat) :
    (l.stored proc index file node sfs sin first).stored proc index { file with pos := file.pos + first } node last end' second =
      l.stored proc index file node last end' (first + second) := by
  simp only [stored, put, FsState.setFiles, files, Function.update_self, Function.update_idem, setFile, List.set_set, Nat.cast_add,
    Int.add_assoc]

end FileLayer

namespace Reader

-- Why the loop ends: all is written, the next buffer cannot be loaded from the user,
-- or the disk is full.
def WriteEnds (r : Reader P N) (node : N) (base pos len : Nat) (ret : Int) (k m : Nat) : Prop :=
  (k = len ∧ ret = 0) ∨ (k < len ∧ ret = eInval ∧ k % 4096 = 0 ∧ ¬ RangeGiven false r.mm (base + k) (min 4096 (len - k))) ∨
    (k < len ∧ ret = Sfs.eNoMem ∧ Sfs.DiskFull r.layer.data.sfs (r.layer.data.inodes node) pos len k m)

-- What sysfile_write has done when k bytes of the user are written.
structure WroteBack (others : Nat → Prop) (r r' : Reader P N) (proc : P) (index : Nat) (file : File N) (node : N) (base pos len : Nat)
    (sfs : Sfs.SfsFs) (sin : Sfs.SfsInode) (ret : Int) (k m : Nat) : Prop where
  user : r'.user = r.user
  layer : r'.layer = r.layer.stored proc index file node sfs sin k
  written : Sfs.Written others r.layer.data.sfs sfs (r.layer.data.inodes node) sin (r.user.from base) pos len k m
  given : 0 < k → RangeGiven false r.mm base k
  ends : r.WriteEnds node base pos len ret k m

section Loop

variable (v : Mounts N) (dev : DeviceWrite N) (others : Nat → Prop) (proc : P) (fd : Int) (index : Nat) (node : N)

theorem stored_none (l : FileLayer P N (SfsData N)) (file : File N) (pos : Nat) (open' : OpenWriter v others l proc fd index file node pos) :
    l.stored proc index file node l.data.sfs (l.data.inodes node) 0 = l := by
  have there := (fd2file_spec (l.files proc) fd index file open'.found).1
  obtain ⟨within, same⟩ := List.getElem?_eq_some_iff.mp there
  have whole : setFile (l.files proc) index file = l.files proc := by
    simp only [setFile, ← same, List.set_getElem_self]
  have kept : ({ file with pos := file.pos + ((0 : Nat) : Int) } : File N) = file := by simp
  rw [FileLayer.stored, kept, FileLayer.put, whole]
  simp [FsState.setFiles, FileLayer.files]

-- Nothing is written when the first buffer cannot be loaded, or when there is none.
theorem wrote_nothing (r : Reader P N) (file : File N) (base pos len : Nat) (open' : OpenWriter v others r.layer proc fd index file node pos)
    (space : Option Mm) (ret : Int) (ends : r.WriteEnds node base pos len ret 0 0) :
    WroteBack others r { r with mm := space } proc index file node base pos len r.layer.data.sfs (r.layer.data.inodes node) ret 0 0 where
  user := rfl
  layer := (stored_none v others proc fd index node r.layer file pos open').symm
  written := {
    grown := Sfs.quiet_grown others _ _ _ open'.mounted open'.map (Sfs.quiet_refl _)
    within := Nat.zero_le _
    stored := fun j below => absurd below (Nat.not_lt_zero j)
    kept := fun _ _ _ => rfl
    covered := fun some => absurd some (Nat.lt_irrefl 0)
    tight := fun some => absurd some (Nat.lt_irrefl 0) }
  given := fun some => absurd some (Nat.lt_irrefl 0)
  ends := ends

-- A buffer that was written whole, and the rest of the loop.
theorem wrote_behind (r r' : Reader P N) (file : File N) (base pos len chunk m n k : Nat) (space : Option Mm) (sfs last : Sfs.SfsFs)
    (sin end' : Sfs.SfsInode) (ret : Int) (some' : 0 < chunk) (inside : chunk ≤ len) (full : chunk = len ∨ chunk = 4096)
    (works : r.layer.data.sfs.dev.results = [])
    (like : ∀ write start count, RangeGiven write space start count ↔ RangeGiven write r.mm start count)
    (allowed : RangeGiven false r.mm base chunk)
    (first : Sfs.Written others r.layer.data.sfs sfs (r.layer.data.inodes node) sin (r.user.from base) pos chunk chunk m)
    (rest : WroteBack others ⟨r.layer.stored proc index file node sfs sin chunk, space, r.user⟩ r' proc index
      { file with pos := file.pos + chunk } node (base + chunk) (pos + chunk) (len - chunk) last end' ret k n) :
    WroteBack others r r' proc index file node base pos len last end' ret (chunk + k) (m + n) := by
  have inode : (r.layer.stored proc index file node sfs sin chunk).data.inodes node = sin := by
    simp only [FileLayer.stored, FileLayer.put, Function.update_self]
  have disk : (r.layer.stored proc index file node sfs sin chunk).data.sfs = sfs := rfl
  have shift : r.user.from (base + chunk) = (r.user.from base).from chunk := by
    funext i
    simp only [Bytes.from, Nat.add_assoc]
  obtain ⟨user, layer, written, given, ends⟩ := rest
  simp only [inode, disk, shift] at written
  refine ⟨user, ?_, Sfs.written_behind others _ _ _ _ _ _ _ pos len chunk k m n some' inside first written, fun _ => ?_, ?_⟩
  · rw [layer, FileLayer.stored_stored]
  · by_cases nothing : k = 0
    · simpa [nothing] using allowed
    · exact (range_given_split false r.mm base chunk k some' (by omega)).mpr ⟨allowed, (like _ _ _).mp (given (by omega))⟩
  · simp only [WriteEnds, inode, disk] at ends ⊢
    rcases ends with ⟨all, zero⟩ | ⟨less, code, whole, refused⟩ | ⟨less, code, stuck⟩
    · exact .inl ⟨by omega, zero⟩
    · refine .inr (.inl ⟨by omega, code, by omega, ?_⟩)
      rw [like, show base + chunk + k = base + (chunk + k) by omega, show len - chunk - k = len - (chunk + k) by omega] at refused
      exact refused
    · exact .inr (.inr ⟨by omega, code, Sfs.full_behind others _ _ _ _ _ pos len chunk k m n some' inside first works stuck⟩)

-- A buffer in which the disk becomes full.
theorem wrote_short (r : Reader P N) (file : File N) (base pos len chunk m k : Nat) (space : Option Mm) (sfs : Sfs.SfsFs) (sin : Sfs.SfsInode)
    (ret : Int) (inside : chunk ≤ len) (allowed : RangeGiven false r.mm base chunk)
    (part : Sfs.Written others r.layer.data.sfs sfs (r.layer.data.inodes node) sin (r.user.from base) pos chunk k m) (less : k < chunk)
    (code : ret = Sfs.eNoMem) (full : Sfs.DiskFull r.layer.data.sfs (r.layer.data.inodes node) pos chunk k m) :
    WroteBack others r ⟨r.layer.stored proc index file node sfs sin k, space, r.user⟩ proc index file node base pos len sfs sin ret k m where
  user := rfl
  layer := rfl
  written := Sfs.written_part others _ _ _ _ _ pos len chunk k m inside _ (fun _ _ => rfl) part
  given := by
    intro some
    obtain ⟨rest, sum⟩ := Nat.exists_eq_add_of_lt less
    rw [show chunk = k + (rest + 1) by omega] at allowed
    exact ((range_given_split false r.mm base k (rest + 1) some (by omega)).mp allowed).1
  ends := .inr (.inr ⟨by omega, code, Sfs.full_part _ _ pos len chunk k m inside full⟩)

theorem write_loop_spec (fuel : Nat) (r : Reader P N) (file : File N) (pos : Nat) (open' : OpenWriter v others r.layer proc fd index file node pos)
    (sound : MmSound r.mm) (buffer : Bytes) (copied : Nat) (base len : UInt64) (fits : pos + len.toNat ≤ 1036 * 4096)
    (enough : len.toNat + 4095 < fuel * 4096) :
    ∃ ret k m sfs sin r', writeLoop v dev proc fd buffer 0 copied base len r fuel = .ok (ret, copied + k, r') ∧
      WroteBack others r r' proc index file node base.toNat pos len.toNat sfs sin ret k m := by
  induction fuel generalizing r file pos buffer copied base len with
  | zero => omega
  | succ fuel ih =>
      rw [writeLoop]
      by_cases done : len = 0
      · subst done
        exact ⟨0, 0, 0, _, _, _, rfl, wrote_nothing v others proc fd index node r file base.toNat pos 0 open' r.mm 0 (.inl ⟨rfl, rfl⟩)⟩
      · have positive : 0 < len.toNat := Nat.pos_of_ne_zero fun zero => done (UInt64.toNat.inj zero)
        generalize chunk : (if iobufSize > len then len else iobufSize) = alen
        have alenNat : alen.toNat = min 4096 len.toNat := chunk ▸ chunk_length len
        obtain ⟨allowed, space, copies, soundNext, law, like⟩ := copy_from_user_spec r.mm sound buffer r.user base alen false
        rw [if_neg done]
        simp only [copies, ok_bind]
        cases allowed with
        | false =>
            have refused : ¬ RangeGiven false r.mm base.toNat alen.toNat := fun held => by simpa using law.mpr held
            refine ⟨eInval, 0, 0, _, _, _, rfl, wrote_nothing v others proc fd index node r file base.toNat pos len.toNat open' space eInval ?_⟩
            exact .inr (.inl ⟨positive, rfl, rfl, by simpa [alenNat] using refused⟩)
        | true =>
            have passed := law.mp rfl
            have top := (range_given_positive _ _ _ _ passed).2
            obtain ⟨ret, sfs, sin, count, m, writes, written, ends⟩ := FileLayer.file_write_spec v dev others r.layer proc fd index file node pos open'
              (memcpy buffer 0 (r.user.from base.toNat) alen.toNat) alen.toNat (by omega) (by omega)
            have brought : ∀ l, l < alen.toNat → memcpy buffer 0 (r.user.from base.toNat) alen.toNat l = r.user.from base.toNat l := fun l below => by
              rw [memcpy_inside _ _ _ _ _ (by omega) (by omega), Nat.sub_zero]
            have part := Sfs.written_part others _ _ _ _ _ pos alen.toNat alen.toNat count m (le_refl _) _ brought written
            have small := written.within
            have countNat : (UInt64.ofNat count).toNat = count := by
              rw [UInt64.toNat_ofNat']
              exact Nat.mod_eq_of_lt (by omega)
            simp only [if_true, writes, ok_bind]
            rcases ends with ⟨all, zero⟩ | ⟨less, code, full⟩
            · subst zero
              subst all
              have given : UInt64.ofNat alen.toNat ≠ 0 := by
                intro zero
                have none := congrArg UInt64.toNat zero
                rw [countNat] at none
                have empty : alen.toNat = 0 := none
                omega
              have within : UInt64.ofNat alen.toNat ≤ len := UInt64.le_iff_toNat_le.mpr (by omega)
              have baseNext : (base + UInt64.ofNat alen.toNat).toNat = base.toNat + alen.toNat := by
                rw [UInt64.toNat_add, countNat, Nat.mod_eq_of_lt top]
              have lenNext : (len - UInt64.ofNat alen.toNat).toNat = len.toNat - alen.toNat := by
                rw [UInt64.toNat_sub_of_le _ _ within, countNat]
              obtain ⟨ret, k, n, last, end', r', loops, wrote⟩ := ih ⟨r.layer.stored proc index file node sfs sin alen.toNat, space, r.user⟩
                { file with pos := file.pos + alen.toNat } (pos + alen.toNat)
                (FileLayer.stored_open v others r.layer proc fd index file node pos open' sfs sin _ _ _ m (by omega) written) soundNext
                (memcpy buffer 0 (r.user.from base.toNat) alen.toNat) (copied + alen.toNat) (base + UInt64.ofNat alen.toNat)
                (len - UInt64.ofNat alen.toNat) (by omega) (by omega)
              simp only [baseNext, lenNext] at wrote
              refine ⟨ret, alen.toNat + k, m + n, last, end', r', ?_, wrote_behind others proc index node r r' file base.toNat pos len.toNat
                alen.toNat m n k space sfs last sin end' ret (by omega) (by omega) (by omega) open'.works like passed part wrote⟩
              simp only [given, ne_eq, not_false_eq_true, not_true_eq_false, if_true, if_false, within, decide_true, check_true, ok_bind, loops,
                Nat.add_assoc]
            · have failed : ret ≠ 0 := by
                rw [code]
                decide
              have wrote := wrote_short others proc index node r file base.toNat pos len.toNat alen.toNat m count space sfs sin ret
                (by omega) passed part less code full
              refine ⟨ret, count, m, sfs, sin, _, ?_, wrote⟩
              by_cases nothing : count = 0
              · subst nothing
                rfl
              · have given : UInt64.ofNat count ≠ 0 := by
                  intro zero
                  rw [zero] at countNat
                  exact nothing countNat.symm
                have within : UInt64.ofNat count ≤ len := UInt64.le_iff_toNat_le.mpr (by omega)
                simp only [given, ne_eq, not_false_eq_true, if_true, within, decide_true, check_true, ok_bind, failed, pure_ok]

theorem sysfile_write_loop (r : Reader P N) (file : File N) (pos : Nat) (open' : OpenWriter v others r.layer proc fd index file node pos)
    (sound : MmSound r.mm) (base len : UInt64) (fits : pos + len.toNat ≤ 1036 * 4096) (buffer : Bytes) :
    ∃ (ret : Int) (k m : Nat) (sfs : Sfs.SfsFs) (sin : Sfs.SfsInode) (r' : Reader P N),
      sysfileWrite v dev r proc fd base len (some buffer) = .ok (if k = 0 then ret else k, r') ∧
      WroteBack others r r' proc index file node base.toNat pos len.toNat sfs sin ret k m := by
  by_cases done : len = 0
  · subst done
    exact ⟨0, 0, 0, _, _, _, rfl, wrote_nothing v others proc fd index node r file base.toNat pos 0 open' r.mm 0 (.inl ⟨rfl, rfl⟩)⟩
  · have whole : iobufSize.toNat = 4096 := rfl
    obtain ⟨ret, k, m, sfs, sin, r', loops, wrote⟩ := write_loop_spec v dev others proc fd index node (len.toNat / iobufSize.toNat + 2) r file
      pos open' sound buffer 0 base len fits (by rw [whole]; omega)
    have tested : (r.layer.fileTestfd proc fd false true : Except (Panic ReadFault) Bool) = .ok true := by
      simp [FileLayer.fileTestfd, open'.found, in_layer_value, open'.writable]
    have within := wrote.written.within
    refine ⟨ret, k, m, sfs, sin, r', ?_, wrote⟩
    simp only [sysfileWrite, if_neg done, tested, ok_bind, not_true_eq_false, if_false, loops, Nat.zero_add, pure_ok]
    by_cases none : k = 0
    · simp [none]
    · simp only [ne_eq, none, not_false_eq_true, if_true, if_false, copied_int k (by omega)]

-- All of len bytes can be written: the user gives them, and there is a free block for
-- each one that the file needs for them.
def Writable (r : Reader P N) (node : N) (base pos len : Nat) : Prop :=
  len = 0 ∨ RangeGiven false r.mm base len ∧
    Sfs.needBlocks (r.layer.data.inodes node).din (Sfs.roundUpDiv (pos + len) 4096 - (r.layer.data.inodes node).din.blocks) ≤
      r.layer.data.sfs.super.unusedBlocks

theorem need_mono (din : Sfs.SfsDiskInode) (m n : Nat) (less : m ≤ n) : Sfs.needBlocks din m ≤ Sfs.needBlocks din n := by
  simp only [Sfs.needBlocks]
  split <;> split <;> omega

theorem wrote_all_iff (r r' : Reader P N) (file : File N) (base pos len : Nat) (works : r.layer.data.sfs.dev.results = []) (sfs : Sfs.SfsFs)
    (sin : Sfs.SfsInode) (ret : Int) (k m : Nat) (wrote : WroteBack others r r' proc index file node base pos len sfs sin ret k m) :
    k = len ↔ r.Writable node base pos len := by
  constructor
  · intro all
    by_cases nothing : len = 0
    · exact .inl nothing
    · have covered := wrote.written.covered (by omega)
      have cost := wrote.written.grown.cost works
      have need := need_mono (r.layer.data.inodes node).din (Sfs.roundUpDiv (pos + len) 4096 - (r.layer.data.inodes node).din.blocks) m (by
        simp only [Sfs.roundUpDiv]
        omega)
      exact .inr ⟨all ▸ wrote.given (by omega), by omega⟩
  · intro writable
    rcases wrote.ends with ⟨all, _⟩ | ⟨less, _, _, refused⟩ | ⟨less, _, full⟩
    · exact all
    · obtain ⟨given, _⟩ := writable.resolve_left (by omega)
      have later : RangeGiven false r.mm (base + k) (len - k) := by
        by_cases start : k = 0
        · simpa [start] using given
        · rw [show len = k + (len - k) by omega] at given
          exact ((range_given_split false r.mm base k (len - k) (by omega) (by omega)).mp given).2
      by_cases short : len - k ≤ 4096
      · rw [Nat.min_eq_right short] at refused
        exact absurd later refused
      · rw [show len - k = 4096 + (len - k - 4096) by omega] at later
        rw [Nat.min_eq_left (by omega)] at refused
        exact absurd ((range_given_split false r.mm (base + k) 4096 (len - k - 4096) (by decide) (by omega)).mp later).1 refused
    · obtain ⟨_, room⟩ := writable.resolve_left (by omega)
      have more := full.more
      have short := full.short
      have need := need_mono (r.layer.data.inodes node).din (m + 1) (Sfs.roundUpDiv (pos + len) 4096 - (r.layer.data.inodes node).din.blocks) (by omega)
      omega

theorem sysfile_write_iff (r : Reader P N) (file : File N) (pos : Nat) (open' : OpenWriter v others r.layer proc fd index file node pos)
    (sound : MmSound r.mm) (base len : UInt64) (fits : pos + len.toNat ≤ 1036 * 4096) (buffer : Bytes) :
    ∃ (ret : Int) (k m : Nat) (sfs : Sfs.SfsFs) (sin : Sfs.SfsInode) (r' : Reader P N),
      sysfileWrite v dev r proc fd base len (some buffer) = .ok (if k = 0 then ret else k, r') ∧
      WroteBack others r r' proc index file node base.toNat pos len.toNat sfs sin ret k m ∧
      (k = len.toNat ↔ r.Writable node base.toNat pos len.toNat) := by
  obtain ⟨ret, k, m, sfs, sin, r', writes, wrote⟩ := sysfile_write_loop v dev others proc fd index node r file pos open' sound base len fits buffer
  exact ⟨ret, k, m, sfs, sin, r', writes, wrote,
    wrote_all_iff others proc index node r r' file base.toNat pos len.toNat open'.works sfs sin ret k m wrote⟩

end Loop

section Seen

variable (v : Mounts N) (dev : DeviceWrite N) (readDev : DeviceRead N) (others : Nat → Prop) (proc other : P) (fd fd' : Int)
  (index index' : Nat) (node : N)

-- The descriptor of another process at the same file, once the write is done inside
-- the blocks that the file had.
theorem stored_open_other (l : FileLayer P N (SfsData N)) (file file' : File N) (apart : other ≠ proc)
    (open' : OpenRegular v l other fd' index' file' node) (sfs : Sfs.SfsFs) (sin : Sfs.SfsInode) (bytes : Bytes) (pos len k : Nat)
    (written : Sfs.Written others l.data.sfs sfs (l.data.inodes node) sin bytes pos len k 0) :
    OpenRegular v (l.stored proc index file node sfs sin k) other fd' index' file' node := by
  have inode : (l.stored proc index file node sfs sin k).data.inodes node = sin := by
    simp only [FileLayer.stored, FileLayer.put, Function.update_self]
  have effect := written.grown.effect
  constructor
  · have table : (l.stored proc index file node sfs sin k).files other = l.files other := by
      simp only [FileLayer.stored, FileLayer.put, FileLayer.files, FsState.setFiles, Function.update_of_ne apart]
    rw [table]
    exact open'.found
  · exact open'.readable
  · exact open'.counted
  · exact open'.named
  · exact open'.regular
  · exact open'.counts
  · exact effect.mounted
  · rw [inode]
    refine ⟨effect.map.type, effect.map.bounded, ?_, Sfs.map_in_use _ _ _ effect.map⟩
    rw [written.grown.blocks, written.grown.size]
    exact open'.stored.covered
  · exact effect.step.results open'.works

-- A write that the user can load is whole inside the blocks of the file.
theorem wrote_inside (r r' : Reader P N) (file : File N) (base pos len : Nat) (works : r.layer.data.sfs.dev.results = [])
    (inside : pos + len ≤ (r.layer.data.inodes node).din.blocks * 4096) (given : len = 0 ∨ RangeGiven false r.mm base len) (sfs : Sfs.SfsFs)
    (sin : Sfs.SfsInode) (ret : Int) (k m : Nat) (wrote : WroteBack others r r' proc index file node base pos len sfs sin ret k m) :
    k = len ∧ ret = 0 ∧ m = 0 := by
  have cover : Sfs.roundUpDiv (pos + len) 4096 ≤ (r.layer.data.inodes node).din.blocks := by
    simp only [Sfs.roundUpDiv]
    omega
  have all : k = len := by
    refine (wrote_all_iff others proc index node r r' file base pos len works sfs sin ret k m wrote).mpr (given.imp id fun range => ⟨range, ?_⟩)
    rw [Nat.sub_eq_zero_of_le cover]
    simp only [Sfs.needBlocks]
    split <;> omega
  refine ⟨all, ?_, ?_⟩
  · rcases wrote.ends with ⟨_, zero⟩ | ⟨less, _⟩ | ⟨less, _⟩
    · exact zero
    · omega
    · omega
  · by_contra fresh
    have reach := wrote.written.tight (by omega)
    omega

-- The bytes of the blocks after a write inside them.
theorem byte_written (s s' : Sfs.SfsFs) (i i' : Sfs.SfsInode) (bytes : Bytes) (pos len p : Nat)
    (written : Sfs.Written others s s' i i' bytes pos len len 0) (mapped : p / 4096 < i.din.blocks) :
    Sfs.fileByte s' i'.din p = memcpy (Sfs.fileByte s i.din) pos bytes len p := by
  by_cases fresh : pos ≤ p ∧ p < pos + len
  · have here := written.stored (p - pos) (by omega)
    rw [show pos + (p - pos) = p by omega] at here
    rw [here, memcpy_inside _ _ _ _ _ fresh.1 fresh.2]
  · rw [written.kept p mapped fresh, memcpy_outside _ _ _ _ _ (by omega)]

-- What one process has written, another one reads at any position of the file: its
-- bytes are those before with the written ones put over them.
theorem write_then_read (r : Reader P N) (file file' : File N) (pos : Nat) (open' : OpenWriter v others r.layer proc fd index file node pos)
    (apart : other ≠ proc) (opened : OpenRegular v r.layer other fd' index' file' node) (sound : MmSound r.mm) (mm : Option Mm) (sound' : MmSound mm)
    (user : Bytes) (base len base' len' : UInt64) (inside : pos + len.toNat ≤ (r.layer.data.inodes node).din.blocks * 4096)
    (given : len = 0 ∨ RangeGiven false r.mm base.toNat len.toNat)
    (allowed : min (restOf (r.layer.size node) file'.pos) len'.toNat = 0 ∨
      RangeGiven true mm base'.toNat (min (restOf (r.layer.size node) file'.pos) len'.toNat))
    (buffer buffer' : Bytes) :
    ∃ (ret : Int) (r' s : Reader P N), sysfileWrite v dev r proc fd base len (some buffer) = .ok (len.toNat, r') ∧
      sysfileRead v readDev ⟨r'.layer, mm, user⟩ other fd' base' len' (some buffer') = .ok (ret, s) ∧
      (if min (restOf (r.layer.size node) file'.pos) len'.toNat = 0 then ret ≤ 0 else ret = min (restOf (r.layer.size node) file'.pos) len'.toNat) ∧
      s.user = memcpy user base'.toNat ((memcpy (r.layer.byte node) pos (r.user.from base.toNat) len.toNat).from file'.pos.toNat)
        (min (restOf (r.layer.size node) file'.pos) len'.toNat) := by
  have bounded := open'.map.bounded
  have fits : pos + len.toNat ≤ 1036 * 4096 := inside.trans (Nat.mul_le_mul_right 4096 bounded)
  obtain ⟨code, k, m, sfs, sin, r', writes, wrote⟩ := sysfile_write_loop v dev others proc fd index node r file pos open' sound base len fits buffer
  obtain ⟨all, done, old⟩ := wrote_inside others proc index node r r' file base.toNat pos len.toNat open'.works inside
    (given.imp (fun none => by rw [none]; rfl) id) sfs sin code k m wrote
  subst all old
  have opened' := wrote.layer ▸ stored_open_other v others proc other fd' index index' node r.layer file file' apart opened sfs sin _ pos
    len.toNat len.toNat wrote.written
  have size : r'.layer.size node = r.layer.size node := by
    rw [wrote.layer]
    simp only [FileLayer.size, FileLayer.stored, FileLayer.put, Function.update_self, wrote.written.grown.size]
  obtain ⟨ret, l, lost, s, reads, looped⟩ := sysfile_read_loop v readDev other fd' index' node ⟨r'.layer, mm, user⟩ file' opened'
    sound' base' len' buffer'
  simp only [size] at looped
  obtain ⟨count, _⟩ := looped.whole allowed
  subst count
  refine ⟨_, r', s, ?_, reads, ?_, ?_⟩
  · rw [writes, done]
    split <;> simp_all
  · split
    · exact looped.negative
    · rfl
  · rw [looped.user]
    refine memcpy_congr _ _ _ _ _ fun i below => ?_
    have mapped : (file'.pos.toNat + i) / 4096 < (r.layer.data.inodes node).din.blocks := by
      have rest : file'.pos.toNat + i < r.layer.size node := by
        unfold restOf at below
        split at below <;> omega
      have covered := opened.stored.covered
      simp only [FileLayer.size, Sfs.blkSize] at rest covered
      omega
    have byte : content ⟨r'.layer, mm, user⟩ node file'.pos i = Sfs.fileByte sfs sin.din (file'.pos.toNat + i) := by
      simp only [content, wrote.layer, FileLayer.byte, FileLayer.stored, FileLayer.put, Function.update_self]
    rw [byte, byte_written others _ _ _ _ _ _ _ _ wrote.written mapped]
    rfl

end Seen

end Reader

section Example

-- Two processes at the file of 50000 bytes: the first one writes it, the second one
-- reads it.
def writerFile : File (Fin 1) := ⟨.opened, false, true, 4000, some 0, 1⟩

def writerFiles : FilesStruct (Fin 1) := ⟨none, (filesCreate (Fin 1)).fdArray.set 3 writerFile, 1⟩

def twoAtFile : Reader (Fin 2) (Fin 1) :=
  ⟨⟨⟨⟨fun _ => 2, fun _ => 2⟩, none, fun proc => if proc = 0 then writerFiles else openFiles, fun _ => true, [0]⟩,
    ⟨Sfs.writtenVolume.sfs, Sfs.writtenVolume.files⟩⟩, some Vmm.threeUserAreas, fun k => UInt8.ofNat (k / 3)⟩

def noDeviceWrite : DeviceWrite (Fin 1) := fun _ _ _ _ _ => .error .assertFailed

theorem two_at_file_writer : OpenWriter oneFile (Sfs.writtenVolume.others (Sfs.freshReserved 1) 0) twoAtFile.layer 0 3 3 writerFile 0 4000 := by
  have wellFormed := Sfs.written_well_formed
  have facts : (Sfs.writtenVolume.files 0).din.blocks = 13 ∧ Sfs.writtenVolume.sfs.dev.results = [] := by decide +kernel
  exact ⟨rfl, rfl, by decide, rfl, rfl, rfl, wellFormed.mounted, .inl wellFormed.superBlock, wellFormed.maps 0, facts.2, rfl,
    by rw [show (twoAtFile.layer.data.inodes 0).din.blocks = 13 from facts.1]; decide⟩

theorem two_at_file_reader : OpenRegular oneFile twoAtFile.layer 1 3 3 openFile 0 := by
  obtain ⟨_, readable, counted, named, regular, _, mounted, stored, works⟩ := one_reader_open
  exact ⟨rfl, readable, counted, named, regular, rfl, mounted, stored, works⟩

theorem two_areas_loaded (va : Nat) (low : 0x800000 ≤ va) (high : va < 0x803000) : ByteAllowed Vmm.threeUserAreas.mmapList false va := by
  refine ⟨?_, fun stores => by cases stores⟩
  by_cases first : va < 0x802000
  · exact ⟨⟨0x800000, 0x802000, Vmm.vmRead⟩, by simp [Vmm.threeUserAreas], ⟨low, first⟩, by decide⟩
  · exact ⟨⟨0x802000, 0x803000, Vmm.vmRead ||| Vmm.vmWrite⟩, by simp [Vmm.threeUserAreas], ⟨by simp only; omega, high⟩, by decide⟩

theorem second_area_stored : RangeGiven true (some Vmm.threeUserAreas) 0x802000 0x1000 := by
  refine ⟨by decide, fun va low high => ⟨⟨⟨0x802000, 0x803000, Vmm.vmRead ||| Vmm.vmWrite⟩, ?_, ⟨low, high⟩, by decide⟩, fun _ vma listed guard => ?_⟩⟩
  · simp [Vmm.threeUserAreas]
  · obtain ⟨stack, has, _⟩ := guard
    simp only [Vmm.threeUserAreas, List.mem_cons, List.not_mem_nil, or_false] at listed
    rcases listed with rfl | rfl | rfl
    · exact absurd stack (by decide)
    · exact absurd stack (by decide)
    · have start := has.1
      simp only at start
      omega

-- 8192 bytes from the first area and the second one.
theorem sysfile_write_two : ∃ (ret : Int) (k m : Nat) (sfs : Sfs.SfsFs) (sin : Sfs.SfsInode) (r' : Reader (Fin 2) (Fin 1)),
    twoAtFile.sysfileWrite oneFile noDeviceWrite 0 3 0x800ff0 0x2000 (some zeroBytes) = .ok (if k = 0 then ret else k, r') ∧
      Reader.WroteBack (Sfs.writtenVolume.others (Sfs.freshReserved 1) 0) twoAtFile r' 0 3 writerFile 0 (0x800ff0 : UInt64).toNat 4000
        (0x2000 : UInt64).toNat sfs sin ret k m ∧
      (k = (0x2000 : UInt64).toNat ↔ twoAtFile.Writable 0 (0x800ff0 : UInt64).toNat 4000 (0x2000 : UInt64).toNat) :=
  Reader.sysfile_write_iff oneFile noDeviceWrite _ 0 3 3 0 twoAtFile writerFile 4000 two_at_file_writer one_reader_sound 0x800ff0 0x2000 (by decide)
    zeroBytes

theorem two_at_file_blocks : (twoAtFile.layer.data.inodes 0).din.blocks = 13 ∧ twoAtFile.layer.size 0 = 50000 := by decide +kernel

-- The first process writes 8192 bytes at 4000, and the second one reads 4096 from the
-- start of the file.
theorem write_then_read_two : ∃ (ret : Int) (r' s : Reader (Fin 2) (Fin 1)),
    twoAtFile.sysfileWrite oneFile noDeviceWrite 0 3 0x800ff0 0x2000 (some zeroBytes) = .ok ((0x2000 : UInt64).toNat, r') ∧
      Reader.sysfileRead oneFile noDevice ⟨r'.layer, some Vmm.threeUserAreas, zeroBytes⟩ 1 3 0x802000 0x1000 (some zeroBytes) = .ok (ret, s) ∧
      (if min (restOf (twoAtFile.layer.size 0) openFile.pos) (0x1000 : UInt64).toNat = 0 then ret ≤ 0
        else ret = min (restOf (twoAtFile.layer.size 0) openFile.pos) (0x1000 : UInt64).toNat) ∧
      s.user = memcpy zeroBytes (0x802000 : UInt64).toNat
        ((memcpy (twoAtFile.layer.byte 0) 4000 (twoAtFile.user.from (0x800ff0 : UInt64).toNat) (0x2000 : UInt64).toNat).from openFile.pos.toNat)
        (min (restOf (twoAtFile.layer.size 0) openFile.pos) (0x1000 : UInt64).toNat) := by
  obtain ⟨blocks, size⟩ := two_at_file_blocks
  have count : min (restOf (twoAtFile.layer.size 0) openFile.pos) (0x1000 : UInt64).toNat = 4096 := by
    rw [size]
    decide
  refine Reader.write_then_read oneFile noDeviceWrite noDevice _ 0 1 3 3 3 3 0 twoAtFile writerFile openFile 4000 two_at_file_writer (by decide)
    two_at_file_reader one_reader_sound (some Vmm.threeUserAreas) one_reader_sound zeroBytes 0x800ff0 0x2000 0x802000 0x1000 ?_ (.inr ⟨by decide, ?_⟩)
    (.inr ?_) zeroBytes zeroBytes
  · rw [blocks]
    decide
  · intro va low high
    exact two_areas_loaded va (Nat.le_trans (by decide) low) (Nat.lt_of_lt_of_le high (by decide))
  · rw [count]
    exact second_area_stored

end Example

end Writes

end Ucore.Vfs
