import Ucore.Vfs.Holders

set_option autoImplicit false

namespace Ucore.Vfs.FsState

open Ucore.Lib

variable {P N : Type} [DecidableEq P] [DecidableEq N]

def caller : FsCall P N → P
  | .openFile proc _ _ _ => proc
  | .close proc _ => proc
  | .dup proc _ _ => proc
  | .chdir proc _ _ => proc
  | .fork proc _ _ _ => proc
  | .exec proc _ _ _ _ => proc
  | .exit proc => proc

-- init_main only makes kernel threads, and do_exit panics for it.
def Enabled (init : P) (s : FsState P N) (event : FsCall P N) : Prop :=
  caller event ∈ s.procs ∧
    match event with
    | .fork _ child _ _ => child ∉ s.procs
    | _ => caller event ≠ init

-- Two paths of the source are left out: an open with O_CREAT and O_EXCL that finds
-- its file, and a process that ends without an mm.
def Plain (v : Mounts N) (s : FsState P N) : FsCall P N → Prop
  | .openFile proc path flags ans => Exclusive flags → ¬ Exists v (s.starts proc) s.counts path ans
  | .exec proc checked path ans load =>
      checked = 0 → load ≠ .failsBefore ∧ (s.mm proc = false → ∀ fd next, s.execOpen v proc path ans = .ok (fd, next) → 0 ≤ fd)
  | .exit proc => s.mm proc = true
  | _ => True

def Allowed (v : Mounts N) (init : P) (s : FsState P N) (event : FsCall P N) : Prop := Enabled init s event ∧ Plain v s event

-- The state in init_main after vfs_set_bootfs: devices of the table have one
-- reference, and the root directory of the boot file system two more.
def boot (v : Mounts N) (init : P) (root : N) : FsState P N where
  counts := ⟨fun node => deviceHold v node + 2 * hit root node, fun _ => 0⟩
  bootfs := some root
  filesp := fun proc => { filesCreate N with pwd := if proc = init then some root else none, filesCount := 1 }
  mm := fun _ => false
  procs := [init]

section Boot

theorem boot_table (v : Mounts N) (init : P) (root : N) (proc : P) (node : N) :
    tableHold ((boot v init root).filesp proc).fdArray node = 0 := table_hold_idle _ (created_idle N) node

theorem boot_inv (v : Mounts N) (init : P) (root : N) : HoldInv v (boot v init root) where
  nodup := List.nodup_singleton init
  ready := fun proc _ => ⟨rfl, fun file member => .inl (created_idle N file member)⟩
  accounted := by
    constructor
    · intro node
      have table := boot_table v init root init node
      have pwd : hitOption ((boot v init root).filesp init).pwd node = hit root node := by simp [boot, hit, hitOption, eq_comm]
      have bootfs : hitOption (boot v init root).bootfs node = hit root node := by simp [boot, hit, hitOption, eq_comm]
      have whole : refHolders v (boot v init root) node = filesHold ((boot v init root).filesp init) node + hitOption (boot v init root).bootfs node +
          deviceHold v node := by simp [refHolders, boot]
      rw [whole, filesHold, table, pwd, bootfs]
      simp only [boot]
      omega
    · intro node
      have table := boot_table v init root init node
      simpa [openHolders, boot] using table.symm

end Boot

section Lives

theorem fork_inv (v : Mounts N) (s next : FsState P N) (proc child : P) (created ready : Bool) (ret : Int) (inv : HoldInv v s)
    (member : proc ∈ s.procs) (fresh : child ∉ s.procs) (returns : s.doFork proc child created ready = .ok (ret, next)) :
    HoldInv v next ∧ (ret < 0 → Moved s.counts next.counts still still) := by
  unfold doFork at returns
  by_cases fails : ¬ ready = true ∨ ¬ created = true
  · simp only [if_pos fails, Except.ok.injEq, Prod.mk.injEq] at returns
    obtain ⟨_, done⟩ := returns
    subst done
    exact ⟨inv, fun _ => moved_refl s.counts⟩
  · simp only [if_neg fails] at returns
    obtain ⟨⟨c, files⟩, dups, returns⟩ := bind_ok returns
    simp only [pure_ok, Except.ok.injEq, Prod.mk.injEq] at returns
    obtain ⟨same, done⟩ := returns
    subst same done
    obtain ⟨moved, zero, settled⟩ := dup_files_moved s.counts c (s.filesp proc) files (inv.ready proc member) dups
    refine ⟨⟨List.nodup_cons.mpr ⟨fresh, inv.nodup⟩, ?_, ?_, ?_⟩, by simp⟩
    · intro other inside
      by_cases same : other = child
      · subst same
        exact ⟨by simp [setFiles, zero], by simpa [setFiles] using settled⟩
      · have old : other ∈ s.procs := (List.mem_cons.mp inside).resolve_left same
        simpa [setFiles, same] using inv.ready other old
    · intro node
      have others := sum_absent s.procs child
        (fun other => filesHold (Function.update s.filesp child { files with filesCount := files.filesCount + 1 } other) node)
        (fun other => filesHold (s.filesp other) node) fresh (by intro other apart; simp [apart])
      have before := inv.accounted.ref node
      have change := moved.ref node
      simp only [filesHold] at *
      simp only [refHolders, filesHold, setFiles, List.map_cons, List.sum_cons, Function.update_self] at before ⊢
      omega
    · intro node
      have others := sum_absent s.procs child
        (fun other => tableHold (Function.update s.filesp child { files with filesCount := files.filesCount + 1 } other).fdArray node)
        (fun other => tableHold (s.filesp other).fdArray node) fresh (by intro other apart; simp [apart])
      have before := inv.accounted.op node
      have change := moved.op node
      simp only [openHolders, setFiles, List.map_cons, List.sum_cons, Function.update_self] at before ⊢
      omega

-- What a call leaves to every process but one.
structure Stays (proc : P) (s next : FsState P N) : Prop where
  files : ∀ other, other ≠ proc → next.filesp other = s.filesp other
  procs : ∀ other, other ≠ proc → other ∈ s.procs → other ∈ next.procs
  bootfs : next.bootfs = s.bootfs

omit [DecidableEq P] [DecidableEq N] in
theorem Stays.trans {proc : P} {s mid next : FsState P N} (first : Stays proc s mid) (second : Stays proc mid next) : Stays proc s next where
  files := fun other apart => (second.files other apart).trans (first.files other apart)
  procs := fun other apart member => second.procs other apart (first.procs other apart member)
  bootfs := second.bootfs.trans first.bootfs

theorem served_stays (s next : FsState P N) (proc : P) (ret : Int) (reply : Served s proc ret next) : Stays proc s next := by
  obtain ⟨c, files, same, _, _⟩ := reply.served
  subst same
  exact ⟨by intro other apart; simp [setFiles, apart], fun _ _ member => member, rfl⟩

theorem fork_stays (s next : FsState P N) (proc child : P) (created ready : Bool) (ret : Int)
    (returns : s.doFork proc child created ready = .ok (ret, next)) : Stays child s next := by
  unfold doFork at returns
  by_cases fails : ¬ ready = true ∨ ¬ created = true
  · simp only [if_pos fails, Except.ok.injEq, Prod.mk.injEq] at returns
    obtain ⟨_, done⟩ := returns
    subst done
    exact ⟨fun _ _ => rfl, fun _ _ member => member, rfl⟩
  · simp only [if_neg fails] at returns
    obtain ⟨⟨c, files⟩, _, returns⟩ := bind_ok returns
    simp only [pure_ok, Except.ok.injEq, Prod.mk.injEq] at returns
    obtain ⟨_, done⟩ := returns
    subst done
    exact ⟨by intro other apart; simp [setFiles, apart], fun _ _ member => List.mem_cons_of_mem _ member, rfl⟩

theorem exit_stays (v : Mounts N) (s next : FsState P N) (proc : P) (returns : s.doExit v proc = .ok next) : Stays proc s next := by
  unfold doExit at returns
  have ends : ∃ c, next = { s with counts := c, mm := Function.update s.mm proc false, procs := s.procs.erase proc } := by
    by_cases mm : s.mm proc = true
    · simp only [if_pos mm] at returns
      obtain ⟨c, _, returns⟩ := bind_ok returns
      exact ⟨c, (Except.ok.inj returns).symm⟩
    · simp only [if_neg mm, ok_bind] at returns
      exact ⟨s.counts, (Except.ok.inj returns).symm⟩
  obtain ⟨c, same⟩ := ends
  subst same
  exact ⟨fun _ _ => rfl, fun other apart member => (List.mem_erase_of_ne apart).mpr member, rfl⟩

theorem exit_inv (v : Mounts N) (s next : FsState P N) (proc : P) (inv : HoldInv v s) (member : proc ∈ s.procs) (mm : s.mm proc = true)
    (returns : s.doExit v proc = .ok next) : HoldInv v next := by
  simp only [doExit, if_pos mm] at returns
  obtain ⟨c, puts, returns⟩ := bind_ok returns
  obtain rfl := Except.ok.inj returns
  have moved := put_files_moved v s.counts c (s.filesp proc) (inv.ready proc member) puts
  refine ⟨inv.nodup.erase proc, fun other inside => inv.ready other (List.mem_of_mem_erase inside), ?_, ?_⟩
  · intro node
    have rest := List.sum_map_erase (fun other => filesHold (s.filesp other) node) member
    have before := inv.accounted.ref node
    have change := moved.ref node
    simp only [refHolders] at before ⊢
    omega
  · intro node
    have rest := List.sum_map_erase (fun other => tableHold (s.filesp other).fdArray node) member
    have before := inv.accounted.op node
    have change := moved.op node
    simp only [openHolders] at before ⊢
    omega

theorem exec_open_inv (v : Mounts N) (s next : FsState P N) (proc : P) (path : List Char) (ans : Answers N) (fd : Int) (inv : HoldInv v s)
    (member : proc ∈ s.procs) (returns : s.execOpen v proc path ans = .ok (fd, next)) :
    HoldInv v next ∧ proc ∈ next.procs ∧ next.mm = s.mm ∧ Stays proc s next := by
  obtain ⟨⟨c, files⟩, closes, opens⟩ := bind_ok returns
  obtain ⟨moved, ready⟩ := files_closeall_moved v s.counts c (s.filesp proc) files (inv.ready proc member) closes
  have closed : HoldInv v (s.setFiles proc c files) := inv.files_changed v s proc c files member ready moved
  have readOnly : ¬ Exclusive oRdOnly := by simp [Exclusive, has, oRdOnly]
  have reply := sysfile_open_served v (s.setFiles proc c files) next proc path oRdOnly ans fd (closed.ready proc member)
    (fun exclusive => absurd exclusive readOnly) opens
  have opened := closed.served v _ next proc fd member reply
  have stays := served_stays _ next proc fd reply
  obtain ⟨c', files', same, _, _⟩ := reply.served
  subst same
  have first : Stays proc s (s.setFiles proc c files) := ⟨by intro other apart; simp [setFiles, apart], fun _ _ inside => inside, rfl⟩
  exact ⟨opened, member, rfl, first.trans stays⟩

theorem exec_inv (v : Mounts N) (s next : FsState P N) (proc : P) (checked : Int) (path : List Char) (ans : Answers N) (load : LoadIcode)
    (result : Option Int) (inv : HoldInv v s) (member : proc ∈ s.procs) (plain : Plain v s (.exec proc checked path ans load))
    (returns : s.doExecve v proc checked path ans load = .ok (result, next)) :
    HoldInv v next ∧ (∀ ret, result = some ret → ret < 0 → Moved s.counts next.counts still still) ∧ Stays proc s next := by
  unfold doExecve at returns
  by_cases refused : checked ≠ 0
  · simp only [if_pos refused, Except.ok.injEq, Prod.mk.injEq] at returns
    obtain ⟨_, done⟩ := returns
    subst done
    exact ⟨inv, fun _ _ _ => moved_refl s.counts, fun _ _ => rfl, fun _ _ inside => inside, rfl⟩
  simp only [if_neg refused] at returns
  obtain ⟨loads, found⟩ := plain (not_not.mp refused)
  obtain ⟨⟨fd, opened⟩, opens, returns⟩ := bind_ok returns
  obtain ⟨openInv, inside, mm, stays⟩ := exec_open_inv v s opened proc path ans fd inv member opens
  by_cases failed : fd < 0
  · simp only [if_pos failed] at returns
    obtain ⟨gone, exits, returns⟩ := bind_ok returns
    simp only [pure_ok, Except.ok.injEq, Prod.mk.injEq] at returns
    obtain ⟨same, done⟩ := returns
    subst same done
    have hasMm : opened.mm proc = true := by
      by_contra none'
      have found := found (by simpa [mm] using none') fd opened opens
      omega
    exact ⟨exit_inv v opened gone proc openInv inside hasMm exits, by simp, stays.trans (exit_stays v opened gone proc exits)⟩
  · simp only [if_neg failed] at returns
    cases load with
    | ok =>
        simp only [pure_ok, Except.ok.injEq, Prod.mk.injEq] at returns
        obtain ⟨same, done⟩ := returns
        subst same done
        refine ⟨openInv.mm_changed v opened _, ?_, stays.files, stays.procs, stays.bootfs⟩
        intro ret same negative
        have zero : 0 = ret := Option.some.inj same
        omega
    | failsBefore => exact absurd rfl loads
    | failsAfter =>
        obtain ⟨gone, exits, returns⟩ := bind_ok returns
        simp only [pure_ok, Except.ok.injEq, Prod.mk.injEq] at returns
        obtain ⟨same, done⟩ := returns
        subst same done
        have given := openInv.mm_changed v opened (Function.update opened.mm proc true)
        have left := exit_stays v _ gone proc exits
        exact ⟨exit_inv v _ gone proc given inside (by simp) exits, by simp, stays.trans ⟨left.files, left.procs, left.bootfs⟩⟩

end Lives

section Steps

omit [DecidableEq P] [DecidableEq N] in
theorem map_some_ok {value : Except Fault (Int × FsState P N)} {result : Option Int} {next : FsState P N}
    (returns : (value.map fun (ret, s) => (some ret, s)) = .ok (result, next)) : ∃ ret, value = .ok (ret, next) ∧ result = some ret := by
  cases value with
  | error fault => simp [Except.map] at returns
  | ok pair =>
      obtain ⟨ret, s⟩ := pair
      simp only [Except.map, Except.ok.injEq, Prod.mk.injEq] at returns
      exact ⟨ret, by rw [returns.2], returns.1.symm⟩

-- The process that a call changes; the boot process is never that one.
def target : FsCall P N → P
  | .fork _ child _ _ => child
  | event => caller event

omit [DecidableEq P] [DecidableEq N] in
theorem target_apart (init : P) (s : FsState P N) (event : FsCall P N) (enabled : Enabled init s event) (inside : init ∈ s.procs) :
    init ≠ target event := by
  obtain ⟨_, mine⟩ := enabled
  cases event with
  | fork proc child created ready =>
      intro same
      have taken : init = child := same
      exact mine (taken ▸ inside)
  | openFile => exact Ne.symm mine
  | close => exact Ne.symm mine
  | dup => exact Ne.symm mine
  | chdir => exact Ne.symm mine
  | exec => exact Ne.symm mine
  | exit => exact Ne.symm mine

theorem call_spec (v : Mounts N) (init : P) (s next : FsState P N) (event : FsCall P N) (result : Option Int) (inv : HoldInv v s)
    (allowed : Allowed v init s event) (returns : s.call v event = .ok (result, next)) :
    HoldInv v next ∧ (∀ ret, result = some ret → ret < 0 → Moved s.counts next.counts still still) ∧ Stays (target event) s next := by
  obtain ⟨⟨member, mine⟩, plain⟩ := allowed
  have replied : ∀ proc ret, proc ∈ s.procs → Served s proc ret next →
      HoldInv v next ∧ (∀ ret', some ret = some ret' → ret' < 0 → Moved s.counts next.counts still still) ∧ Stays proc s next := by
    intro proc ret member reply
    exact ⟨inv.served v s next proc ret member reply, fun ret' same => Option.some.inj same ▸ reply.failed, served_stays s next proc ret reply⟩
  cases event with
  | openFile proc path flags ans =>
      obtain ⟨ret, opens, same⟩ := map_some_ok returns
      subst same
      exact replied proc ret member (sysfile_open_served v s next proc path flags ans ret (inv.ready proc member) plain opens)
  | close proc fd =>
      obtain ⟨ret, closes, same⟩ := map_some_ok returns
      subst same
      exact replied proc ret member (file_close_served v s next proc fd ret (inv.ready proc member) closes)
  | dup proc fd1 fd2 =>
      obtain ⟨ret, dups, same⟩ := map_some_ok returns
      subst same
      exact replied proc ret member (file_dup_served s next proc fd1 fd2 ret (inv.ready proc member) dups)
  | chdir proc path ans =>
      obtain ⟨ret, changes, same⟩ := map_some_ok returns
      subst same
      exact replied proc ret member (chdir_served v s next proc path ans ret (inv.ready proc member) changes)
  | fork proc child created ready =>
      obtain ⟨ret, forks, same⟩ := map_some_ok returns
      subst same
      obtain ⟨forked, failed⟩ := fork_inv v s next proc child created ready ret inv member mine forks
      exact ⟨forked, fun ret' same => Option.some.inj same ▸ failed, fork_stays s next proc child created ready ret forks⟩
  | exec proc checked path ans load => exact exec_inv v s next proc checked path ans load result inv member plain returns
  | exit proc =>
      simp only [call] at returns
      cases exits : s.doExit v proc with
      | error fault => simp [exits, Except.map] at returns
      | ok gone =>
          simp only [exits, Except.map, Except.ok.injEq, Prod.mk.injEq] at returns
          obtain ⟨same, done⟩ := returns
          subst same done
          exact ⟨exit_inv v s gone proc inv member plain exits, by simp, exit_stays v s gone proc exits⟩

-- The boot process is there for good, with the files it had.
structure BootInv (v : Mounts N) (init : P) (root : N) (s : FsState P N) : Prop where
  hold : HoldInv v s
  inside : init ∈ s.procs
  files : s.filesp init = (boot v init root).filesp init
  bootfs : s.bootfs = some root

theorem step_inv (v : Mounts N) (init : P) (root : N) (s : FsState P N) (event : FsCall P N) (next : FsState P N) (inv : BootInv v init root s)
    (allowed : Allowed v init s event) (taken : s.step v event = some next) : BootInv v init root next := by
  unfold step at taken
  cases called : s.call v event with
  | error fault => simp [called] at taken
  | ok reply =>
      obtain ⟨result, after⟩ := reply
      simp only [called, Option.some.injEq] at taken
      subst taken
      obtain ⟨hold, _, stays⟩ := call_spec v init s after event result inv.hold allowed called
      have apart := target_apart init s event allowed.1 inv.inside
      exact ⟨hold, stays.procs init apart inv.inside, (stays.files init apart).trans inv.files, stays.bootfs.trans inv.bootfs⟩

theorem boot_counts (v : Mounts N) (init : P) (root : N) (s : FsState P N) (inv : BootInv v init root s) (alone : s.procs = [init]) :
    s.counts = (boot v init root).counts := by
  have start := (boot_inv v init root).accounted
  have ref : s.counts.refCount = (boot v init root).counts.refCount := by
    funext node
    rw [inv.hold.accounted.ref node, start.ref node]
    simp [refHolders, alone, inv.files, inv.bootfs, boot]
  have op : s.counts.openCount = (boot v init root).counts.openCount := by
    funext node
    rw [inv.hold.accounted.op node, start.op node]
    simp [openHolders, alone, inv.files, boot]
  cases counts : s.counts
  simp_all

-- Every run: in all its states the counts are those of the holders, a call that
-- returns an error moves no count, and once the processes are gone the counts are
-- the first ones.
theorem inode_references_accounted (v : Mounts N) (init : P) (root : N) (events : List (FsCall P N)) (final : FsState P N)
    (allowed : Throughout (step v) (Allowed v init) (boot v init root) events) (ran : run (step v) (boot v init root) events = some final) :
    Accounted v final ∧
      (∀ event ret next, Allowed v init final event → final.call v event = .ok (some ret, next) → ret < 0 → next.counts = final.counts) ∧
      (final.procs = [init] → final.counts = (boot v init root).counts) := by
  have start : BootInv v init root (boot v init root) := ⟨boot_inv v init root, by simp [boot], rfl, rfl⟩
  have inv := run_invariant (step v) (Allowed v init) (BootInv v init root) (step_inv v init root) events _ final start allowed ran
  refine ⟨inv.hold.accounted, ?_, boot_counts v init root final inv⟩
  intro event ret next here returns failed
  obtain ⟨_, error, _⟩ := call_spec v init final next event (some ret) inv.hold here returns
  exact moved_still final.counts next.counts (error ret rfl failed)

end Steps

section Example

instance (v : Mounts N) (starts : Starts N) (c : Counts N) (path : List Char) (ans : Answers N) : Decidable (Exists v starts c path ans) :=
  match found : vfsLookup v starts c path ans with
  | .ok (c', .ok node) => isTrue ⟨c', node, found⟩
  | .ok (_, .error _) => isFalse fun ⟨_, _, same⟩ => by simp [found] at same
  | .error _ => isFalse fun ⟨_, _, same⟩ => by simp [found] at same

instance (v : Mounts N) (s : FsState P N) (proc : P) (path : List Char) (ans : Answers N) :
    Decidable (∀ fd next, s.execOpen v proc path ans = .ok (fd, next) → 0 ≤ fd) :=
  match opens : s.execOpen v proc path ans with
  | .ok (fd, next) => decidable_of_iff (0 ≤ fd) ⟨fun positive fd' next' same => by simp_all, fun all => all fd next rfl⟩
  | .error _ => isTrue fun _ _ same => by simp at same

instance (flags : BitVec 32) : Decidable (Exclusive flags) := inferInstanceAs (Decidable (_ ∧ _))

instance (v : Mounts N) (init : P) (s : FsState P N) (event : FsCall P N) : Decidable (Allowed v init s event) := by
  cases event <;> unfold Allowed Enabled Plain <;> infer_instance

-- The root directory 0 on the device 9, with a file 1.
def oneFile : Mounts Nat where
  kind := fun node => if node = 0 then .dir else if node = 9 then .device else .file
  rootOf := fun _ => 0
  devs := [⟨['d'], 9, some 0, true⟩]

def finds : Answers Nat := ⟨0, .ok 1, 0, 0, .ok 0⟩

def misses : Answers Nat := ⟨0, .error eNoEnt, 0, 0, .ok 0⟩

def shellRun : List (FsCall Nat Nat) :=
  [.fork 0 1 true true, .exec 1 0 ['s'] finds .ok, .openFile 1 ['f'] oWrOnly finds, .fork 1 2 true true, .dup 2 1 5, .openFile 2 ['g'] oRdOnly misses,
    .chdir 1 ['f'] finds, .close 2 0, .exec 2 0 ['p'] finds .failsAfter, .exit 1]

theorem inode_references_accounted_shell : ∃ final, run (step oneFile) (boot oneFile 0 0) shellRun = some final ∧ Accounted oneFile final ∧
    (∀ event ret next, Allowed oneFile 0 final event → final.call oneFile event = .ok (some ret, next) → ret < 0 → next.counts = final.counts) ∧
    (final.procs = [0] → final.counts = (boot oneFile 0 0).counts) := by
  have returns : (run (step oneFile) (boot oneFile 0 0) shellRun).isSome = true := by decide +kernel
  obtain ⟨final, ran⟩ := Option.isSome_iff_exists.mp returns
  exact ⟨final, ran, inode_references_accounted oneFile 0 0 shellRun final (by decide +kernel) ran⟩

-- The device has one reference and none of the other holders. An open with O_CREAT
-- and O_EXCL of a file that is there returns an error and leaves one reference; a
-- first program that is not found leaves the working directory of its process.
theorem device_and_leaked_references :
    ((boot oneFile 0 0).counts.refCount 9 = 1 ∧
      (((boot oneFile 0 0).procs.map fun proc => filesHold ((boot oneFile 0 0).filesp proc) 9).sum + hitOption (boot oneFile 0 0).bootfs 9 = 0)) ∧
    ((run (step oneFile) (boot oneFile 0 0) [.fork 0 1 true true, .exec 1 0 ['s'] finds .ok]).bind fun s =>
      match s.call oneFile (.openFile 1 ['f'] (oCreat ||| oExcl) finds) with
      | .ok (ret, next) => some (ret, next.counts.refCount 1 - s.counts.refCount 1)
      | .error _ => none) = some (some eExists, 1) ∧
    ((run (step oneFile) (boot oneFile 0 0) [.fork 0 1 true true, .exec 1 0 ['s'] misses .ok]).map fun s =>
      (s.procs, s.counts.refCount 0 - (boot oneFile 0 0).counts.refCount 0)) = some ([0], 1) := by
  refine ⟨⟨by decide +kernel, by decide +kernel⟩, by decide +kernel, by decide +kernel⟩

end Example

end Ucore.Vfs.FsState
