import Mathlib.Data.List.TakeWhile
import Ucore.Vfs.LayerOpens

set_option autoImplicit false

namespace Ucore.Vfs.FileLayer

open Ucore.Lib

variable {P N C F : Type} [DecidableEq N]

variable {v : Mounts N} {b : Below N C F} {l : FileLayer P N C}

theorem descriptor_of_held {proc : P} {fd : Int} (inv : l.LayerInv v) (member : proc ∈ l.fs.procs) (entry : File N × N) (held : l.held proc fd = some entry) :
    ∃ index, Descriptor l proc fd index entry.1 entry.2 := by
  cases fd_cases inv member fd with
  | inl missing =>
      obtain ⟨_, _, nothing⟩ := missing
      exact absurd held (by simp [nothing])
  | inr there =>
      obtain ⟨index, file, node, found⟩ := there
      obtain rfl : (file, node) = entry := by simpa [found.held] using held
      exact ⟨index, found⟩

variable [DecidableEq P]

-- Every call that fits, with its answer and the state for the next one.
theorem call_replies (mounted : WellMounted v) (clean : ∀ data node, v.kind node = .dir → b.reclaim data node = .ok data) (inv : l.LayerInv v)
    (event : LayerCall P N) (allowed : l.Allowed event) (fits : l.Fits v event) :
    Ends (Stops (l.Unsupported v b event)) (Replies v l (l.Unsupported v b event)) (l.call v b event) := by
  obtain ⟨member, few⟩ := allowed
  have room := inv_counts mounted inv few
  cases event with
  | openFile proc path flags copyPath lookup => exact open_answers mounted room inv member clean path flags copyPath lookup fits
  | read proc fd len =>
      replace member : proc ∈ l.fs.procs := member
      exact io_answers room inv member fd zeroBytes len false _ (by simp [Unsupported]) fits
  | write proc fd buf len =>
      replace member : proc ∈ l.fs.procs := member
      refine io_answers room inv member fd buf len true _ (by simp [Unsupported]) fun entry held writable dir => ?_
      obtain ⟨index, found⟩ := descriptor_of_held inv member entry held
      have closed := inv.modes proc member entry.1 (List.mem_of_getElem? found.there) entry.2 found.opened found.named dir
      exact absurd (closed.symm.trans writable) (by decide)
  | seek proc fd pos whence => exact seek_answers room inv member fd pos whence fits
  | fstat proc fd => exact fstat_answers room inv member fd
  | fsync proc fd => exact fsync_answers room inv member fd fits
  | getdirentry proc fd offset => exact getdirentry_answers room inv member fd offset fits
  | dup proc fd1 fd2 => exact dup_answers inv member fd1 fd2
  | close proc fd => exact close_answers mounted few inv member fd

section Exact

omit [DecidableEq N] in
theorem vop_op_missing (c : Counts N) (node : N) (op : Vop) (absent : op ∉ (v.kind node).inOps) :
    (vopOp v c node op : Except (Panic F) Unit) = .error (.missing op) := by
  simp [vopOp, absent]

theorem missing_not_handled (event : LayerCall P N) (op : Vop) (stops : l.call v b event = .error (.missing op)) : ¬ l.Handled v b event := by
  intro handled
  rw [Handled, stops] at handled
  exact handled.1

theorem cut_path_cases (path : List Char) : cutPath path = path.takeWhile (fun c => ¬ isMark c) ∨
    (cutPath path = path ∧ ∀ head tail rest, path.takeWhile (fun c => ¬ isMark c) = head :: tail →
      path.drop (path.takeWhile fun c => ¬ isMark c).length ≠ ':' :: rest) := by
  unfold cutPath
  simp only
  split
  · exact .inl rfl
  · rename_i noDevice
    exact .inr ⟨rfl, fun head tail rest named device => noDevice head tail rest named device⟩

-- What is left of the path names no device, so it starts at the working directory or
-- the boot file system, which are there.
theorem parent_found {starts : Starts N} (placed : Placed v starts) (c c' : Counts N) (path : List Char) (result : Except Int (N × List Char))
    (located : getDevice v starts c (cutPath path) = .ok (c', result)) : ∃ start, result = .ok start := by
  obtain ⟨pwd, atPwd, _⟩ := placed.pwd
  obtain ⟨boot, atBoot, _⟩ := placed.bootfs
  have plain : ∀ head tail rest, (cutPath path).takeWhile (fun c => ¬ isMark c) = head :: tail →
      (cutPath path).drop ((cutPath path).takeWhile fun c => ¬ isMark c).length ≠ ':' :: rest := by
    intro head tail rest named device
    rcases cut_path_cases path with cut | ⟨cut, noDevice⟩
    · have whole : (cutPath path).takeWhile (fun c => ¬ isMark c) = cutPath path := by
        rw [List.takeWhile_eq_self_iff, cut]
        exact fun letter inside => List.mem_takeWhile_imp (p := fun c => decide ¬isMark c = true) inside
      rw [whole, List.drop_length] at device
      exact absurd device (by simp)
    · rw [cut] at named device
      exact noDevice head tail rest named device
  unfold getDevice at located
  simp only [vfsGetCurdir, vfsGetBootfs, atPwd, atBoot] at located
  split at located
  · obtain ⟨after, _, located⟩ := bind_ok located
    simp only [pure_ok, Except.ok.injEq, Prod.mk.injEq] at located
    exact ⟨_, located.2.symm⟩
  · simp only [Except.map, Except.ok.injEq, Prod.mk.injEq] at located
    exact ⟨_, located.2.symm⟩
  · rename_i head tail rest named device
    exact absurd device (plain head tail rest named)
  · simp only [Except.map, Except.ok.injEq, Prod.mk.injEq] at located
    exact ⟨_, located.2.symm⟩

variable {proc : P} {fd : Int} {index : Nat} {file : File N} {node : N}

-- The first steps of a call on a descriptor return, and the operation stops.
omit [DecidableEq P] [DecidableEq N] in
theorem entry_stops {β : Type} (entry : Descriptor l proc fd index file node) (next : File N → N → Except (Panic F) β) :
    (do let file ← inLayer (fdArrayAcquire file); let node ← inLayer (nodeOf file); next file node : Except (Panic F) β) =
      next { file with openCount := file.openCount + 1 } node := by
  have acquires : (inLayer (fdArrayAcquire file) : Except (Panic F) _) = .ok { file with openCount := file.openCount + 1 } :=
    (in_layer_ok _ _).mpr (acquire_ok file entry.opened)
  have named : (inLayer (nodeOf { file with openCount := file.openCount + 1 }) : Except (Panic F) _) = .ok node :=
    (in_layer_ok _ _).mpr (node_of_ok _ node entry.named)
  rw [acquires, ok_bind, named, ok_bind]

theorem read_stops (entry : Descriptor l proc fd index file node) (len : Nat) (readable : file.readable = true) (dir : v.kind node = .dir) :
    l.call v b (.read proc fd len) = .error (.missing .vopRead) := by
  have found : (inLayer (fd2file (l.files proc) fd) : Except (Panic F) _) = .ok (.ok (index, file)) := (in_layer_ok _ _).mpr entry.found
  have missing : (vopOp v l.fs.counts node .vopRead : Except (Panic F) Unit) = .error (.missing .vopRead) :=
    vop_op_missing _ node .vopRead (by simp [dir, InodeKind.inOps])
  simp only [call, fileIo, found, ok_bind, Bool.false_eq_true, if_false, readable, not_true_eq_false]
  rw [entry_stops entry]
  simp only [vopIo, Bool.false_eq_true, if_false, missing, error_bind]

theorem fsync_stops (entry : Descriptor l proc fd index file node) (device : v.kind node = .device) :
    l.call v b (.fsync proc fd) = .error (.missing .vopFsync) := by
  have found : (inLayer (fd2file (l.files proc) fd) : Except (Panic F) _) = .ok (.ok (index, file)) := (in_layer_ok _ _).mpr entry.found
  have missing : (vopOp v l.fs.counts node .vopFsync : Except (Panic F) Unit) = .error (.missing .vopFsync) :=
    vop_op_missing _ node .vopFsync (by simp [device, InodeKind.inOps])
  simp only [call, fileFsync, found, ok_bind]
  rw [entry_stops entry, missing, error_bind]

theorem getdirentry_stops (entry : Descriptor l proc fd index file node) (offset : Int) (other : v.kind node ≠ .dir) :
    l.call v b (.getdirentry proc fd offset) = .error (.missing .vopGetdirentry) := by
  have found : (inLayer (fd2file (l.files proc) fd) : Except (Panic F) _) = .ok (.ok (index, file)) := (in_layer_ok _ _).mpr entry.found
  have missing : (vopOp v l.fs.counts node .vopGetdirentry : Except (Panic F) Unit) = .error (.missing .vopGetdirentry) := by
    refine vop_op_missing _ node .vopGetdirentry ?_
    cases kind : v.kind node <;> simp [kind, InodeKind.inOps] at other ⊢
  simp only [call, fileGetdirentry, found, ok_bind]
  rw [entry_stops entry, missing, error_bind]

theorem seek_stops (room : Room v l.fs.counts 0) (entry : Descriptor l proc fd index file node) (pos whence : Int) (dir : v.kind node = .dir)
    (known : whence = lseekSet ∨ whence = lseekCur ∨ whence = lseekEnd) :
    l.call v b (.seek proc fd pos whence) = .error (.missing .vopTryseek) := by
  have found : (inLayer (fd2file (l.files proc) fd) : Except (Panic F) _) = .ok (.ok (index, file)) := (in_layer_ok _ _).mpr entry.found
  have missing : (vopOp v l.fs.counts node .vopTryseek : Except (Panic F) Unit) = .error (.missing .vopTryseek) :=
    vop_op_missing _ node .vopTryseek (by simp [dir, InodeKind.inOps])
  have target : ∃ target, l.seekTarget v b { file with openCount := file.openCount + 1 } node pos whence = .ok (.ok target) := by
    have stat : ∃ size, vopFstat v b l.fs.counts l.data node = .ok size := by
      have listed : decide (Vop.vopFstat ∈ (v.kind node).inOps) = true := by simp [dir, InodeKind.inOps]
      have checked : (inLayer (inodeCheck l.fs.counts node) : Except (Panic F) Unit) = .ok () :=
        (in_layer_ok _ _).mpr (inode_check_ok room (le_refl 0) node)
      simp only [vopFstat, vopOp, listed, check_true, ok_bind, checked, pure_ok]
      exact ⟨_, rfl⟩
    obtain ⟨size, stats⟩ := stat
    unfold seekTarget
    split
    · exact ⟨_, rfl⟩
    split
    · exact ⟨_, rfl⟩
    split
    · simp only [stats, ok_bind, pure_ok]
      exact ⟨_, rfl⟩
    · rename_i set cur last
      exact absurd known (by simp [set, cur, last])
  obtain ⟨target, targets⟩ := target
  simp only [call, fileSeek, found, ok_bind]
  rw [entry_stops entry, targets]
  simp only [ok_bind, vopTryseek, missing, error_bind]

omit [DecidableEq N] in
theorem alloc_found (files : FilesStruct N) (ready : Ready files) (free : ∃ file ∈ files.fdArray, file.status = .none) :
    ∃ index file, fdArrayAlloc files noFd = .ok (.ok (index, file)) := by
  obtain ⟨file, member, none'⟩ := free
  obtain ⟨index, at'⟩ : ∃ index, files.fdArray.findIdx? (fun file => file.status = .none) = some index := by
    rw [← Option.isSome_iff_exists, List.findIdx?_isSome]
    exact List.any_eq_true.mpr ⟨file, member, by simp [none']⟩
  obtain ⟨inside, unused, _⟩ := List.findIdx?_eq_some_iff_getElem.mp at'
  have there : files.fdArray[index]? = some files.fdArray[index] := List.getElem?_eq_getElem inside
  have idle := idle_of_settled _ (ready.settled _ (List.getElem_mem inside)) (by simp [of_decide_eq_true unused])
  refine ⟨index, { files.fdArray[index] with status := .init, node := none }, ?_⟩
  have count : decide (0 < files.filesCount) = true := by simp [ready.count]
  simp only [fdArrayAlloc, count, check_true, ok_bind, if_true, at', Option.bind_some, there, Option.map_some, idle.1, idle.2, decide_true, pure_ok]

-- What an open with O_CREAT does at the places that it has to keep away from.
theorem open_stops (mounted : WellMounted v) (inv : l.LayerInv v) (member : proc ∈ l.fs.procs) (room : Room v l.fs.counts 4) (path : List Char)
    (flags : BitVec 32) (lookup : Except Int N) (reached : l.Reaches proc flags 0) (creates : has flags oCreat = true) :
    match l.looked v proc path lookup with
    | .error ret => ret = eNoEnt → l.call v b (.openFile proc path flags 0 lookup) = .error (.missing .vopCreate)
    | .ok node =>
        if has flags oExcl = true then
          ∃ reply, l.call v b (.openFile proc path flags 0 lookup) = .ok reply ∧ reply.2.fs.counts ≠ l.fs.counts
        else v.kind node = .dir → flags &&& oAccMode = oRdOnly → has flags oAppend = false →
          l.call v b (.openFile proc path flags 0 lookup) = .error (.missing .vopTruncate) := by
  obtain ⟨_, badMode, badTrunc, free⟩ := reached
  obtain ⟨index, file, allocs⟩ := alloc_found (l.files proc) (inv_ready inv member) free
  obtain ⟨mid, target, looks⟩ := vfs_lookup_ok mounted (inv.placed proc member) room path ⟨0, lookup, 0, 0, .ok 0⟩
  have located := vfs_lookup_found v (l.fs.starts proc) l.fs.counts mid path _ target looks
  have answered : l.looked v proc path lookup = target := by simp [looked, looks]
  have allocated : (inLayer (fdArrayAlloc (l.files proc) noFd) : Except (Panic F) _) = .ok (.ok (index, file)) := (in_layer_ok _ _).mpr allocs
  have searched : (inLayer (vfsLookup v (l.fs.starts proc) l.fs.counts path ⟨0, lookup, 0, 0, .ok 0⟩) : Except (Panic F) _) = .ok (mid, target) :=
    (in_layer_ok _ _).mpr looks
  rw [answered]
  simp only [call, sysfileOpen, ne_eq, not_true_eq_false, if_false, fileOpen, if_neg badMode, allocated, ok_bind, openPath, if_neg badTrunc, searched]
  cases target with
  | error ret =>
      intro same
      obtain rfl := moved_still l.fs.counts mid located
      obtain ⟨after, dir, starts, _⟩ := get_device_start mounted (inv.placed proc member) (room_weaken room 2 (by decide)) (cutPath path)
      obtain ⟨start, rfl⟩ := parent_found (inv.placed proc member) _ _ path dir starts
      have device : (inLayer (getDevice v (l.fs.starts proc) l.fs.counts (cutPath path)) : Except (Panic F) _) = .ok (after, .ok start) :=
        (in_layer_ok _ _).mpr starts
      simp only [same, creates, and_self, if_true, device, ok_bind, error_bind]
  | ok node =>
      by_cases excl : has flags oExcl = true
      · obtain ⟨old, there, none', taken, unopened⟩ := fd_array_alloc_spec _ _ index file allocs
        have frees : (inLayer (fdArrayFree v mid file) : Except (Panic F) _) = .ok (mid, { file with status := .none }) :=
          (in_layer_ok _ _).mpr (by simp [fdArrayFree, taken, unopened])
        simp only [excl, creates, and_self, if_true, ok_bind, frees, pure_ok, Except.ok.injEq]
        refine ⟨_, rfl, fun same => ?_⟩
        have more := Moved.ref located node
        have counts : mid = l.fs.counts := same
        simp only [counts, hit, if_true] at more
        omega
      · simp only [if_neg excl]
        intro dir mode append
        have roomMid := room_moved room (hit node) still 1 located fun other => by
          obtain ⟨first, second⟩ := hit_bounds node other
          simp only [still]
          omega
        have checked := inode_check_ok roomMid (by decide) node
        have opens : (inLayer (vopOpen v mid node flags ⟨0, .ok node, (b.device node).dopOpen flags, 0, .ok 0⟩) : Except (Panic F) _) = .ok 0 :=
          (in_layer_ok _ _).mpr (by simp [vopOpen, checked, dir, mode, append])
        have missing : (vopOp v (openInc mid node) node .vopTruncate : Except (Panic F) Unit) = .error (.missing .vopTruncate) :=
          vop_op_missing _ node .vopTruncate (by simp [dir, InodeKind.inOps])
        simp only [excl, Bool.false_eq_true, false_and, openNode, opens, ok_bind, ne_eq, not_true_eq_false, if_false, creates, or_true, if_true, missing, error_bind]

theorem handled_fits (mounted : WellMounted v) (inv : l.LayerInv v) (event : LayerCall P N) (allowed : l.Allowed event)
    (handled : l.Handled v b event) : l.Fits v event := by
  obtain ⟨member, few⟩ := allowed
  have room := inv_counts mounted inv few
  cases event with
  | openFile proc path flags copyPath lookup =>
      intro reached creates
      replace member : proc ∈ l.fs.procs := member
      obtain rfl := reached.1
      have stops := open_stops (b := b) mounted inv member room path flags lookup reached creates
      cases target : l.looked v proc path lookup with
      | error ret =>
          rw [target] at stops
          exact fun same => missing_not_handled _ _ (stops same) handled
      | ok node =>
          simp only [target, Creates] at stops ⊢
          by_cases excl : has flags oExcl = true
          · rw [if_pos excl] at stops ⊢
            obtain ⟨reply, returns, apart⟩ := stops
            rw [Handled, returns] at handled
            by_contra other
            have here : node ∈ l.found v proc path lookup := by
              simp only [looked] at target
              split at target
              · rename_i looks
                simp [found, looks, target]
              · exact absurd target (by simp)
            have refused : l.Unsupported v b (.openFile proc path flags 0 lookup) := by
              refine ⟨rfl, node, here, ?_⟩
              cases kind : v.kind node with
              | file => exact absurd kind other
              | dir => exact .inl ⟨kind, .inr (.inr creates)⟩
              | device => exact .inr ⟨kind, .inl (by simp [has_or, creates])⟩
            exact apart (handled refused).2.counts
          · rw [if_neg excl] at stops ⊢
            intro dir
            by_contra plain
            rw [not_or, not_not, Bool.not_eq_true] at plain
            exact missing_not_handled _ _ (stops dir plain.1 plain.2) handled
  | read proc fd len =>
      intro entry held readable dir
      obtain ⟨index, found⟩ := descriptor_of_held inv member entry held
      exact missing_not_handled _ _ (read_stops found len readable dir) handled
  | seek proc fd pos whence =>
      intro entry held known dir
      obtain ⟨index, found⟩ := descriptor_of_held inv member entry held
      exact missing_not_handled _ _ (seek_stops (room_weaken room 0 (by decide)) found pos whence dir known) handled
  | fsync proc fd =>
      intro entry held device
      obtain ⟨index, found⟩ := descriptor_of_held inv member entry held
      exact missing_not_handled _ _ (fsync_stops found device) handled
  | getdirentry proc fd offset =>
      intro entry held
      by_contra other
      obtain ⟨index, found⟩ := descriptor_of_held inv member entry held
      exact missing_not_handled _ _ (getdirentry_stops found offset other) handled
  | write proc fd buf len => trivial
  | fstat proc fd => trivial
  | dup proc fd1 fd2 => trivial
  | close proc fd => trivial

end Exact

end Ucore.Vfs.FileLayer
