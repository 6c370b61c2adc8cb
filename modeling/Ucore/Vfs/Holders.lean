import Ucore.Lib.Run
import Ucore.Lib.Sums
import Ucore.Vfs.Table

set_option autoImplicit false

namespace Ucore.Vfs.FsState

open Ucore.Lib

variable {P N : Type} [DecidableEq P] [DecidableEq N]

-- The holders of an inode: entries and working directories of the processes, the
-- boot file system, and the entries of the device table.
def deviceHold (v : Mounts N) (node : N) : Int := (v.devs.map fun dev => hit dev.devnode node).sum

def refHolders (v : Mounts N) (s : FsState P N) (node : N) : Int :=
  (s.procs.map fun proc => filesHold (s.filesp proc) node).sum + hitOption s.bootfs node + deviceHold v node

def openHolders (s : FsState P N) (node : N) : Int := (s.procs.map fun proc => tableHold (s.filesp proc).fdArray node).sum

structure Accounted (v : Mounts N) (s : FsState P N) : Prop where
  ref : ∀ node, s.counts.refCount node = refHolders v s node
  op : ∀ node, s.counts.openCount node = openHolders s node

structure HoldInv (v : Mounts N) (s : FsState P N) : Prop where
  nodup : s.procs.Nodup
  ready : ∀ proc ∈ s.procs, Ready (s.filesp proc)
  accounted : Accounted v s

section Changes

omit [DecidableEq N] in
theorem set_files_self (s : FsState P N) (proc : P) : s.setFiles proc s.counts (s.filesp proc) = s := by simp [setFiles]

theorem HoldInv.files_changed (v : Mounts N) (s : FsState P N) (proc : P) (c : Counts N) (files : FilesStruct N) (inv : HoldInv v s)
    (member : proc ∈ s.procs) (ready : Ready files)
    (moved : Moved s.counts c (fun node => filesHold files node - filesHold (s.filesp proc) node)
      (fun node => tableHold files.fdArray node - tableHold (s.filesp proc).fdArray node)) : HoldInv v (s.setFiles proc c files) where
  nodup := inv.nodup
  ready := by
    intro other inside
    by_cases same : other = proc
    · subst same
      simpa [setFiles] using ready
    · simpa [setFiles, same] using inv.ready other inside
  accounted := by
    constructor
    · intro node
      have sums := sum_others s.procs proc (fun other => filesHold (Function.update s.filesp proc files other) node)
        (fun other => filesHold (s.filesp other) node) inv.nodup member (by intro other apart; simp [apart])
      have before := inv.accounted.ref node
      have change := moved.ref node
      simp only [Function.update_self] at sums
      simp only [refHolders, setFiles] at before ⊢
      omega
    · intro node
      have sums := sum_others s.procs proc (fun other => tableHold (Function.update s.filesp proc files other).fdArray node)
        (fun other => tableHold (s.filesp other).fdArray node) inv.nodup member (by intro other apart; simp [apart])
      have before := inv.accounted.op node
      have change := moved.op node
      simp only [Function.update_self] at sums
      simp only [openHolders, setFiles] at before ⊢
      omega

omit [DecidableEq P] in
theorem HoldInv.mm_changed (v : Mounts N) (s : FsState P N) (mm : P → Bool) (inv : HoldInv v s) : HoldInv v { s with mm := mm } :=
  ⟨inv.nodup, inv.ready, inv.accounted.ref, inv.accounted.op⟩

-- What a call of a process that goes on does: it changes its own table, and moves
-- the counts by what the table holds more or less.
structure Served (s : FsState P N) (proc : P) (ret : Int) (next : FsState P N) : Prop where
  served : ∃ c files, next = s.setFiles proc c files ∧ Ready files ∧
    Moved s.counts c (fun node => filesHold files node - filesHold (s.filesp proc) node)
      (fun node => tableHold files.fdArray node - tableHold (s.filesp proc).fdArray node)
  failed : ret < 0 → Moved s.counts next.counts still still

theorem served_still (s : FsState P N) (proc : P) (ret : Int) (ready : Ready (s.filesp proc)) : Served s proc ret s where
  served := by
    refine ⟨s.counts, s.filesp proc, (set_files_self s proc).symm, ready, ?_⟩
    apply (moved_refl s.counts).congr <;> intro node <;> simp [still]
  failed := fun _ => moved_refl s.counts

theorem HoldInv.served (v : Mounts N) (s next : FsState P N) (proc : P) (ret : Int) (inv : HoldInv v s) (member : proc ∈ s.procs)
    (reply : Served s proc ret next) : HoldInv v next := by
  obtain ⟨c, files, same, ready, moved⟩ := reply.served
  subst same
  exact inv.files_changed v s proc c files member ready moved

end Changes

section Calls

-- The entry of a call at index becomes file, and the counts move with it.
theorem served_entry (s : FsState P N) (proc : P) (ret : Int) (c : Counts N) (index : Nat) (old file : File N) (ready : Ready (s.filesp proc))
    (there : (s.filesp proc).fdArray[index]? = some old) (settled : Settled file)
    (moved : Moved s.counts c (fun node => fileHold file node - fileHold old node) (fun node => fileHold file node - fileHold old node))
    (failed : ret < 0 → Moved s.counts c still still) : Served s proc ret (s.setFiles proc c (setFile (s.filesp proc) index file)) where
  served := by
    refine ⟨c, _, rfl, set_file_ready (s.filesp proc) index file ready settled, ?_⟩
    apply moved.congr
    · intro node
      exact (set_file_hold (s.filesp proc) index old file there node).2.symm
    · intro node
      exact (set_file_hold (s.filesp proc) index old file there node).1.symm
  failed := failed

-- The same for an entry that stays or gets free, with no count moved.
theorem served_freed (v : Mounts N) (s : FsState P N) (proc : P) (ret : Int) (c c' : Counts N) (index : Nat) (old file file' : File N)
    (ready : Ready (s.filesp proc)) (there : (s.filesp proc).fdArray[index]? = some old) (free : Idle old) (taken : file.status = .init)
    (moved : Moved s.counts c still still) (frees : fdArrayFree v c file = .ok (c', file')) :
    Served s proc ret (s.setFiles proc c' (setFile (s.filesp proc) index file')) := by
  obtain ⟨same, idle⟩ := fd_array_free_init v c c' file file' taken frees
  subst same
  apply served_entry s proc ret c' index old file' ready there (.inl idle)
  · apply moved.congr <;> intro node <;> simp [still, idle_hold file' idle, idle_hold old free]
  · exact fun _ => moved

theorem open_sized_served (v : Mounts N) (s next : FsState P N) (proc : P) (c : Counts N) (node : N) (flags : BitVec 32) (size : Except Int Int)
    (index : Nat) (old file : File N) (ret : Int) (ready : Ready (s.filesp proc)) (there : (s.filesp proc).fdArray[index]? = some old)
    (free : Idle old) (taken : file.status = .init) (unopened : file.openCount = 0) (opened : Moved s.counts c (hit node) (hit node))
    (returns : s.openSized v proc c node flags size index file = .ok (ret, next)) : Served s proc ret next := by
  cases size with
  | error failure =>
      obtain ⟨closed, closes, returns⟩ := bind_ok returns
      obtain ⟨⟨c', file'⟩, frees, returns⟩ := bind_ok returns
      simp only [pure_ok, Except.ok.injEq, Prod.mk.injEq] at returns
      obtain ⟨same, done⟩ := returns
      subst same done
      have back : Moved s.counts closed still still := by
        apply (opened.trans (vfs_close_moved v c closed node closes)).congr <;> intro other <;> simp [still]
      exact served_freed v s proc failure closed c' index old file file' ready there free taken back frees
  | ok pos =>
      obtain ⟨file', takes, returns⟩ := bind_ok returns
      simp only [pure_ok, Except.ok.injEq, Prod.mk.injEq] at returns
      obtain ⟨same, done⟩ := returns
      subst same done
      obtain ⟨_, _, entry⟩ := fd_array_open_spec _ file' takes
      subst entry
      apply served_entry s proc index c index old _ ready there
      · exact .inr ⟨rfl, by simp [unopened], node, rfl⟩
      · apply opened.congr <;> intro other <;> rw [idle_hold old free] <;> simp [fileHold, hit, hitOption, eq_comm]
      · intro negative
        omega

theorem open_at_served (v : Mounts N) (s next : FsState P N) (proc : P) (path : List Char) (flags : BitVec 32) (ans : Answers N)
    (index : Nat) (old file : File N) (ret : Int) (ready : Ready (s.filesp proc)) (there : (s.filesp proc).fdArray[index]? = some old)
    (free : Idle old) (taken : file.status = .init) (unopened : file.openCount = 0)
    (plain : Exclusive flags → ¬ Exists v (s.starts proc) s.counts path ans)
    (returns : s.openAt v proc path flags ans index file = .ok (ret, next)) : Served s proc ret next := by
  obtain ⟨⟨c, found⟩, opens, returns⟩ := bind_ok returns
  have opened := vfs_open_opened v (s.starts proc) s.counts c path flags ans found plain opens
  cases found with
  | error failure =>
      obtain ⟨⟨c', file'⟩, frees, returns⟩ := bind_ok returns
      simp only [pure_ok, Except.ok.injEq, Prod.mk.injEq] at returns
      obtain ⟨same, done⟩ := returns
      subst same done
      exact served_freed v s proc failure c c' index old file file' ready there free taken opened frees
  | ok node =>
      have sized : ∃ size, s.openSized v proc c node flags size index file = .ok (ret, next) := by
        by_cases appends : has flags oAppend = true
        · simp only [if_pos appends] at returns
          obtain ⟨_, _, returns⟩ := bind_ok returns
          exact ⟨_, returns⟩
        · simp only [if_neg appends] at returns
          exact ⟨_, returns⟩
      obtain ⟨size, returns⟩ := sized
      exact open_sized_served v s next proc c node flags size index old file ret ready there free taken unopened opened returns

theorem sysfile_open_served (v : Mounts N) (s next : FsState P N) (proc : P) (path : List Char) (flags : BitVec 32) (ans : Answers N)
    (ret : Int) (ready : Ready (s.filesp proc)) (plain : Exclusive flags → ¬ Exists v (s.starts proc) s.counts path ans)
    (returns : s.sysfileOpen v proc path flags ans = .ok (ret, next)) : Served s proc ret next := by
  unfold sysfileOpen at returns
  by_cases copied : ans.copyPath ≠ 0
  · simp only [if_pos copied, Except.ok.injEq, Prod.mk.injEq] at returns
    obtain ⟨same, done⟩ := returns
    subst same done
    exact served_still s proc _ ready
  simp only [if_neg copied] at returns
  unfold fileOpen at returns
  by_cases badMode : flags &&& oAccMode = oAccMode
  · simp only [if_pos badMode, Except.ok.injEq, Prod.mk.injEq] at returns
    obtain ⟨same, done⟩ := returns
    subst same done
    exact served_still s proc _ ready
  simp only [if_neg badMode] at returns
  obtain ⟨slot, allocs, returns⟩ := bind_ok returns
  cases slot with
  | error failure =>
      simp only [pure_ok, Except.ok.injEq, Prod.mk.injEq] at returns
      obtain ⟨same, done⟩ := returns
      subst same done
      exact served_still s proc _ ready
  | ok entry =>
      obtain ⟨index, file⟩ := entry
      obtain ⟨old, there, none', taken, unopened⟩ := fd_array_alloc_spec _ _ index file allocs
      have free : Idle old := idle_of_settled old (ready.settled old (List.mem_of_getElem? there)) (by simp [none'])
      exact open_at_served v s next proc path flags ans index old file ret ready there free taken unopened plain returns

theorem file_close_served (v : Mounts N) (s next : FsState P N) (proc : P) (fd : Int) (ret : Int) (ready : Ready (s.filesp proc))
    (returns : s.fileClose v proc fd = .ok (ret, next)) : Served s proc ret next := by
  obtain ⟨slot, finds, returns⟩ := bind_ok returns
  cases slot with
  | error failure =>
      simp only [pure_ok, Except.ok.injEq, Prod.mk.injEq] at returns
      obtain ⟨same, done⟩ := returns
      subst same done
      exact served_still s proc _ ready
  | ok entry =>
      obtain ⟨index, old⟩ := entry
      obtain ⟨there, opened⟩ := fd2file_spec _ _ index old finds
      obtain ⟨⟨c, file⟩, closes, returns⟩ := bind_ok returns
      simp only [pure_ok, Except.ok.injEq, Prod.mk.injEq] at returns
      obtain ⟨same, done⟩ := returns
      subst same done
      obtain ⟨moved, idle⟩ := fd_array_close_moved v s.counts c old file (ready.settled old (List.mem_of_getElem? there)) opened closes
      apply served_entry s proc 0 c index old file ready there (.inl idle)
      · apply moved.congr <;> intro node <;> simp [idle_hold file idle]
      · intro negative
        omega

theorem file_dup_served (s next : FsState P N) (proc : P) (fd1 fd2 : Int) (ret : Int) (ready : Ready (s.filesp proc))
    (returns : s.fileDup proc fd1 fd2 = .ok (ret, next)) : Served s proc ret next := by
  obtain ⟨slot, finds, returns⟩ := bind_ok returns
  cases slot with
  | error failure =>
      simp only [pure_ok, Except.ok.injEq, Prod.mk.injEq] at returns
      obtain ⟨same, done⟩ := returns
      subst same done
      exact served_still s proc _ ready
  | ok entry =>
      obtain ⟨_, origin⟩ := entry
      obtain ⟨_, opened⟩ := fd2file_spec _ _ _ origin finds
      obtain ⟨place, allocs, returns⟩ := bind_ok returns
      cases place with
      | error failure =>
          simp only [pure_ok, Except.ok.injEq, Prod.mk.injEq] at returns
          obtain ⟨same, done⟩ := returns
          subst same done
          exact served_still s proc _ ready
      | ok target =>
          obtain ⟨index, file⟩ := target
          obtain ⟨old, there, none', _, unopened⟩ := fd_array_alloc_spec _ _ index file allocs
          have free : Idle old := idle_of_settled old (ready.settled old (List.mem_of_getElem? there)) (by simp [none'])
          obtain ⟨⟨c, file'⟩, dups, returns⟩ := bind_ok returns
          simp only [pure_ok, Except.ok.injEq, Prod.mk.injEq] at returns
          obtain ⟨same, done⟩ := returns
          subst same done
          obtain ⟨moved, settled, hold⟩ := fd_array_dup_moved s.counts c file file' origin unopened opened dups
          apply served_entry s proc index c index old file' ready there settled
          · apply moved.congr <;> intro node <;> rw [idle_hold old free, hold node] <;> simp
          · intro negative
            omega

theorem chdir_served (v : Mounts N) (s next : FsState P N) (proc : P) (path : List Char) (ans : Answers N) (ret : Int)
    (ready : Ready (s.filesp proc)) (returns : s.sysfileChdir v proc path ans = .ok (ret, next)) : Served s proc ret next := by
  unfold sysfileChdir at returns
  by_cases copied : ans.copyPath ≠ 0
  · simp only [if_pos copied, Except.ok.injEq, Prod.mk.injEq] at returns
    obtain ⟨same, done⟩ := returns
    subst same done
    exact served_still s proc _ ready
  simp only [if_neg copied] at returns
  obtain ⟨⟨c, found⟩, changes, returns⟩ := bind_ok returns
  have changed := vfs_chdir_changed v (s.starts proc) s.counts c path ans found changes
  cases found with
  | error failure =>
      simp only [pure_ok, Except.ok.injEq, Prod.mk.injEq] at returns
      obtain ⟨same, done⟩ := returns
      subst same done
      constructor
      · refine ⟨c, s.filesp proc, by simp [setFiles], ready, ?_⟩
        apply Moved.congr changed <;> intro node <;> simp [still]
      · exact fun _ => changed
  | ok pwd =>
      simp only [pure_ok, Except.ok.injEq, Prod.mk.injEq] at returns
      obtain ⟨same, done⟩ := returns
      subst same done
      constructor
      · refine ⟨c, _, rfl, ⟨ready.count, ready.settled⟩, ?_⟩
        apply Moved.congr changed
        · intro node
          simp only [filesHold, starts]
          omega
        · intro node
          simp [still]
      · intro negative
        omega

end Calls

end Ucore.Vfs.FsState
