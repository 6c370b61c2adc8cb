import Ucore.Vfs.LayerData

set_option autoImplicit false

namespace Ucore.Vfs

open Ucore.Lib

variable {P N C F : Type} [DecidableEq P] [DecidableEq N]

section Simulation

variable {v : Mounts N} {b : Below N C F} {starts : Starts N} {c c' : Counts N}

-- The opens are those of the counts alone, with the answers of the layers below.
theorem open_node_answered (data next : C) (node : N) (flags : BitVec 32) (result lookup : Except Int N)
    (returns : openNode v b c data node flags = .ok (c', next, result)) :
    ∃ ans : Answers N, ans.lookup = lookup ∧ vfsOpenNode v c node flags ans = .ok (c', result) := by
  obtain ⟨ret, opens, returns⟩ := bind_ok returns
  rw [in_layer_ok] at opens
  have opened : ∀ code, vopOpen v c node flags ⟨0, lookup, (b.device node).dopOpen flags, code, .ok 0⟩ = .ok ret := fun code => opens
  by_cases refused : ret ≠ 0
  · simp only [if_pos refused] at returns
    obtain ⟨after, dec, returns⟩ := bind_ok returns
    obtain ⟨_, _, returns⟩ := bind_ok returns
    simp only [pure_ok, Except.ok.injEq, Prod.mk.injEq] at returns
    obtain ⟨rfl, _, rfl⟩ := returns
    rw [in_layer_ok] at dec
    exact ⟨⟨0, lookup, (b.device node).dopOpen flags, 0, .ok 0⟩, rfl, by simp [vfsOpenNode, opened 0, refused, dec]⟩
  · simp only [if_neg refused] at returns
    have zero := not_not.mp refused
    by_cases cuts : has flags oTrunc = true ∨ has flags oCreat = true
    · simp only [if_pos cuts] at returns
      obtain ⟨_, dispatched, returns⟩ := bind_ok returns
      obtain ⟨⟨code, after⟩, cut, returns⟩ := bind_ok returns
      have known := vop_op_kind dispatched
      have checked := (in_layer_ok _ _).mp (check_bind_ok dispatched).2
      have file : v.kind node = .file := by
        cases kind : v.kind node <;> simp [kind, InodeKind.inOps] at known ⊢
      by_cases failed : code ≠ 0
      · simp only [if_pos failed] at returns
        obtain ⟨closed, closes, returns⟩ := bind_ok returns
        obtain ⟨_, _, returns⟩ := bind_ok returns
        simp only [pure_ok, Except.ok.injEq, Prod.mk.injEq] at returns
        obtain ⟨rfl, _, rfl⟩ := returns
        rw [in_layer_ok] at closes
        exact ⟨⟨0, lookup, (b.device node).dopOpen flags, code, .ok 0⟩, rfl,
          by simp [vfsOpenNode, opened code, zero, cuts, vopTruncate, file, checked, failed, closes]⟩
      · simp only [if_neg failed, pure_ok, Except.ok.injEq, Prod.mk.injEq] at returns
        obtain ⟨rfl, _, rfl⟩ := returns
        obtain rfl : code = 0 := not_not.mp failed
        exact ⟨⟨0, lookup, (b.device node).dopOpen flags, 0, .ok 0⟩, rfl,
          by simp [vfsOpenNode, opened 0, zero, cuts, vopTruncate, file, checked]⟩
    · simp only [if_neg cuts, pure_ok, Except.ok.injEq, Prod.mk.injEq] at returns
      obtain ⟨rfl, _, rfl⟩ := returns
      exact ⟨⟨0, lookup, (b.device node).dopOpen flags, 0, .ok 0⟩, rfl, by simp [vfsOpenNode, opened 0, zero, cuts]⟩

theorem vfs_lookup_answered (path : List Char) (ans other : Answers N) (same : ans.lookup = other.lookup) :
    vfsLookup v starts c path ans = vfsLookup v starts c path other := by
  have searches : ∀ counts node subpath, vopLookup v counts node subpath ans = vopLookup v counts node subpath other := by
    intro counts node subpath
    simp only [vopLookup, same]
  simp only [vfsLookup, searches]

theorem open_path_answered (data next : C) (path : List Char) (flags : BitVec 32) (lookup result : Except Int N)
    (returns : openPath v b starts c data path flags lookup = .ok (c', next, result)) :
    ∃ ans : Answers N, ans.lookup = lookup ∧ vfsOpen v starts c path flags ans = .ok (c', result) := by
  unfold openPath at returns
  by_cases badMode : flags &&& oAccMode = oAccMode
  · simp only [if_pos badMode, Except.ok.injEq, Prod.mk.injEq] at returns
    obtain ⟨rfl, _, rfl⟩ := returns
    exact ⟨⟨0, lookup, 0, 0, .ok 0⟩, rfl, by simp [vfsOpen, badMode]⟩
  by_cases badTrunc : has flags oTrunc = true ∧ flags &&& oAccMode = oRdOnly
  · simp only [if_neg badMode, if_pos badTrunc, Except.ok.injEq, Prod.mk.injEq] at returns
    obtain ⟨rfl, _, rfl⟩ := returns
    exact ⟨⟨0, lookup, 0, 0, .ok 0⟩, rfl, by rw [vfsOpen, if_neg badMode, if_pos badTrunc]⟩
  simp only [if_neg badMode, if_neg badTrunc] at returns
  obtain ⟨⟨mid, found⟩, looked, returns⟩ := bind_ok returns
  rw [in_layer_ok] at looked
  have searched : ∀ ans : Answers N, ans.lookup = lookup → vfsLookup v starts c path ans = .ok (mid, found) := fun ans same =>
    (vfs_lookup_answered path ans _ same).trans looked
  cases found with
  | error ret =>
      refine ⟨⟨0, lookup, 0, 0, .ok 0⟩, rfl, ?_⟩
      rw [vfsOpen, if_neg badMode, if_neg badTrunc, searched _ rfl]
      by_cases creates : ret = eNoEnt ∧ has flags oCreat = true
      · simp only [if_pos creates] at returns
        obtain ⟨⟨after, dir⟩, device, returns⟩ := bind_ok returns
        rw [in_layer_ok] at device
        cases dir with
        | error code =>
            simp only [pure_ok, Except.ok.injEq, Prod.mk.injEq] at returns
            obtain ⟨rfl, _, rfl⟩ := returns
            simp only [ok_bind, if_pos creates, device, pure_ok]
        | ok start => exact absurd returns (by simp)
      · simp only [if_neg creates, pure_ok, Except.ok.injEq, Prod.mk.injEq] at returns
        obtain ⟨rfl, _, rfl⟩ := returns
        simp only [ok_bind, if_neg creates, pure_ok]
  | ok node =>
      by_cases exclusive : has flags oExcl = true ∧ has flags oCreat = true
      · simp only [if_pos exclusive, pure_ok, Except.ok.injEq, Prod.mk.injEq] at returns
        obtain ⟨rfl, _, rfl⟩ := returns
        refine ⟨⟨0, lookup, 0, 0, .ok 0⟩, rfl, ?_⟩
        rw [vfsOpen, if_neg badMode, if_neg badTrunc, searched _ rfl]
        simp only [ok_bind, if_pos exclusive, pure_ok]
      · simp only [if_neg exclusive] at returns
        obtain ⟨ans, same, opens⟩ := open_node_answered data next node flags result lookup returns
        refine ⟨ans, same, ?_⟩
        rw [vfsOpen, if_neg badMode, if_neg badTrunc, searched ans same]
        simp only [ok_bind, if_neg exclusive, opens]

namespace FileLayer

variable (l next' : FileLayer P N C) (proc : P) (ret : Int)

theorem sysfile_open_answered (path : List Char) (flags : BitVec 32) (copyPath : Int) (lookup : Except Int N)
    (returns : l.sysfileOpen v b proc path flags copyPath lookup = .ok (ret, next')) :
    ∃ ans : Answers N, ans.lookup = lookup ∧ l.fs.sysfileOpen v proc path flags ans = .ok (ret, next'.fs) := by
  unfold sysfileOpen at returns
  by_cases copied : copyPath ≠ 0
  · rw [if_pos copied, Except.ok.injEq, Prod.mk.injEq] at returns
    obtain ⟨rfl, rfl⟩ := returns
    exact ⟨⟨copyPath, lookup, 0, 0, .ok 0⟩, rfl, by simp [FsState.sysfileOpen, copied]⟩
  rw [if_neg copied] at returns
  unfold fileOpen at returns
  by_cases badMode : flags &&& oAccMode = oAccMode
  · rw [if_pos badMode, Except.ok.injEq, Prod.mk.injEq] at returns
    obtain ⟨rfl, rfl⟩ := returns
    exact ⟨⟨0, lookup, 0, 0, .ok 0⟩, rfl, by simp [FsState.sysfileOpen, FsState.fileOpen, badMode]⟩
  rw [if_neg badMode] at returns
  obtain ⟨slot, allocs, returns⟩ := bind_ok returns
  rw [in_layer_ok] at allocs
  have direct : ∀ ans : Answers N, ans.copyPath = 0 → l.fs.sysfileOpen v proc path flags ans =
      match slot with
      | .error code => .ok (code, l.fs)
      | .ok (index, file) => l.fs.openAt v proc path flags ans index file := by
    intro ans zero
    rw [FsState.sysfileOpen, if_neg (by simp [zero]), FsState.fileOpen, if_neg badMode]
    rw [show fdArrayAlloc (l.fs.filesp proc) noFd = .ok slot from allocs]
    cases slot <;> rfl
  cases slot with
  | error code =>
      simp only [pure_ok, Except.ok.injEq, Prod.mk.injEq] at returns
      obtain ⟨rfl, rfl⟩ := returns
      exact ⟨⟨0, lookup, 0, 0, .ok 0⟩, rfl, direct _ rfl⟩
  | ok entry =>
      obtain ⟨index, file⟩ := entry
      obtain ⟨⟨c, data, result⟩, opens, returns⟩ := bind_ok returns
      obtain ⟨ans, same, opened⟩ := open_path_answered l.data data path flags lookup result opens
      -- What vop_fstat answers is free in the opens of the counts.
      have answered : ∀ size, ∃ ans : Answers N, ans.copyPath = 0 ∧ ans.lookup = lookup ∧ ans.fstat = size ∧
          vfsOpen v (l.fs.starts proc) l.fs.counts path flags ans = .ok (c, result) := fun size =>
        ⟨⟨0, ans.lookup, ans.devOpen, ans.truncate, size⟩, rfl, same, rfl, opened⟩
      cases result with
      | error code =>
          obtain ⟨given, zero, found, _, opened⟩ := answered (.ok 0)
          obtain ⟨⟨c', file'⟩, frees, returns⟩ := bind_ok returns
          simp only [pure_ok, Except.ok.injEq, Prod.mk.injEq] at returns
          obtain ⟨rfl, rfl⟩ := returns
          rw [in_layer_ok] at frees
          refine ⟨given, found, (direct given zero).trans ?_⟩
          simp only [FsState.openAt, opened, ok_bind, frees, pure_ok]
          rfl
      | ok node =>
          obtain ⟨pos, stats, returns⟩ := bind_ok returns
          obtain ⟨file', takes, returns⟩ := bind_ok returns
          simp only [pure_ok, Except.ok.injEq, Prod.mk.injEq] at returns
          obtain ⟨rfl, rfl⟩ := returns
          rw [in_layer_ok] at takes
          obtain ⟨given, zero, found, size, opened⟩ := answered (.ok pos)
          refine ⟨given, found, (direct given zero).trans ?_⟩
          simp only [FsState.openAt, opened, ok_bind, size]
          by_cases appends : has flags oAppend = true
          · rw [if_pos appends] at stats ⊢
            obtain ⟨_, dispatched, _⟩ := bind_ok stats
            have checked := (in_layer_ok _ _).mp (check_bind_ok dispatched).2
            simp only [checked, ok_bind, FsState.openSized, takes, pure_ok]
            rfl
          · rw [if_neg appends] at stats ⊢
            obtain rfl := Except.ok.inj stats
            simp only [FsState.openSized, takes, ok_bind, pure_ok]
            rfl

theorem file_close_answered (fd : Int) (returns : l.fileClose v b proc fd = .ok (ret, next')) :
    l.fs.fileClose v proc fd = .ok (ret, next'.fs) := by
  obtain ⟨slot, finds, returns⟩ := bind_ok returns
  rw [in_layer_ok] at finds
  rw [FsState.fileClose, show fd2file (l.fs.filesp proc) fd = .ok slot from finds]
  cases slot with
  | error code =>
      simp only [pure_ok, Except.ok.injEq, Prod.mk.injEq] at returns
      obtain ⟨rfl, rfl⟩ := returns
      rfl
  | ok entry =>
      obtain ⟨⟨c, closed⟩, closes, returns⟩ := bind_ok returns
      obtain ⟨_, _, returns⟩ := bind_ok returns
      obtain ⟨_, _, returns⟩ := bind_ok returns
      simp only [pure_ok, Except.ok.injEq, Prod.mk.injEq] at returns
      obtain ⟨rfl, rfl⟩ := returns
      rw [in_layer_ok] at closes
      simp only [ok_bind, closes, pure_ok]
      rfl

theorem file_dup_answered (fd1 fd2 : Int) (returns : (l.fileDup proc fd1 fd2 : Except (Panic F) _) = .ok (ret, next')) :
    l.fs.fileDup proc fd1 fd2 = .ok (ret, next'.fs) := by
  obtain ⟨⟨code, fs⟩, dups, returns⟩ := bind_ok returns
  rw [in_layer_ok] at dups
  simp only [pure_ok, Except.ok.injEq, Prod.mk.injEq] at returns
  obtain ⟨rfl, rfl⟩ := returns
  exact dups

end FileLayer

end Simulation

end Ucore.Vfs
