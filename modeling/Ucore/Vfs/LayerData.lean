import Ucore.Vfs.FileLayer

set_option autoImplicit false

namespace Ucore.Vfs

open Ucore.Lib

variable {P N C F : Type} [DecidableEq P] [DecidableEq N]

@[simp] theorem in_layer_ok {α : Type} (value : Except Fault α) (result : α) :
    (inLayer value : Except (Panic F) α) = .ok result ↔ value = .ok result := by
  cases value <;> simp [inLayer, Except.mapError]

@[simp] theorem below_ok {α : Type} (value : Except F α) (result : α) : below value = .ok result ↔ value = .ok result := by
  cases value <;> simp [below, Except.mapError]

-- What the calls below may do to what is stored, whichever call of the file layer
-- makes them.
structure Related (v : Mounts N) (b : Below N C F) (R : C → C → Prop) : Prop where
  refl : ∀ data, R data data
  trans : ∀ first second third, R first second → R second third → R first third
  fsync : ∀ data node ret next, v.kind node ≠ .device → b.fsync data node = .ok (ret, next) → R data next
  reclaim : ∀ data node next, v.kind node ≠ .device → b.reclaim data node = .ok next → R data next
  getdirentry : ∀ data node offset ret next, b.getdirentry data node offset = .ok (ret, next) → R data next

section Operations

variable {v : Mounts N} {b : Below N C F} {R : C → C → Prop}

omit [DecidableEq N] in
theorem vop_op_kind {c : Counts N} {node : N} {op : Vop} (returns : (vopOp v c node op : Except (Panic F) Unit) = .ok ()) :
    op ∈ (v.kind node).inOps := of_decide_eq_true (check_bind_ok returns).1

omit [DecidableEq N] in
theorem reclaim_data_related (related : Related v b R) (c : Counts N) (data next : C) (node : N)
    (returns : reclaimData v b c data node = .ok next) : R data next := by
  unfold reclaimData at returns
  by_cases gone : c.refCount node = 0 ∧ v.kind node ≠ .device
  · rw [if_pos gone, below_ok] at returns
    exact related.reclaim data node next gone.2 returns
  · rw [if_neg gone] at returns
    exact Except.ok.inj returns ▸ related.refl data

omit [DecidableEq N] in
theorem close_data_related (related : Related v b R) (c : Counts N) (data next : C) (node : N)
    (returns : closeData v b c data node = .ok next) : R data next := by
  obtain ⟨⟨ret, synced⟩, syncs, reclaims⟩ := bind_ok returns
  have second := reclaim_data_related related c synced next node reclaims
  by_cases last : c.openCount node = 0 ∧ v.kind node ≠ .device
  · rw [if_pos last, below_ok] at syncs
    exact related.trans _ _ _ (related.fsync data node ret synced last.2 syncs) second
  · rw [if_neg last, Except.ok.injEq, Prod.mk.injEq] at syncs
    exact syncs.2 ▸ second

theorem open_node_related (related : Related v b R) (c c' : Counts N) (data next : C) (node : N) (flags : BitVec 32) (found : Except Int N)
    (truncate : (has flags oTrunc = true ∨ has flags oCreat = true) → v.kind node = .file →
      ∀ ret after, b.truncate data node 0 = .ok (ret, after) → R data after)
    (returns : openNode v b c data node flags = .ok (c', next, found)) : R data next := by
  obtain ⟨ret, _, returns⟩ := bind_ok returns
  by_cases refused : ret ≠ 0
  · simp only [if_pos refused] at returns
    obtain ⟨_, _, returns⟩ := bind_ok returns
    obtain ⟨after, reclaims, returns⟩ := bind_ok returns
    simp only [pure_ok, Except.ok.injEq, Prod.mk.injEq] at returns
    exact returns.2.1 ▸ reclaim_data_related related _ data after node reclaims
  · simp only [if_neg refused] at returns
    by_cases cuts : has flags oTrunc = true ∨ has flags oCreat = true
    · simp only [if_pos cuts] at returns
      obtain ⟨_, dispatched, returns⟩ := bind_ok returns
      obtain ⟨⟨code, after⟩, cut, returns⟩ := bind_ok returns
      rw [below_ok] at cut
      have file : v.kind node = .file := by
        have known := vop_op_kind dispatched
        cases kind : v.kind node <;> simp [kind, InodeKind.inOps] at known ⊢
      have first := truncate cuts file code after cut
      by_cases failed : code ≠ 0
      · simp only [if_pos failed] at returns
        obtain ⟨_, _, returns⟩ := bind_ok returns
        obtain ⟨closed, closes, returns⟩ := bind_ok returns
        simp only [pure_ok, Except.ok.injEq, Prod.mk.injEq] at returns
        exact returns.2.1 ▸ related.trans _ _ _ first (close_data_related related _ after closed node closes)
      · simp only [if_neg failed, pure_ok, Except.ok.injEq, Prod.mk.injEq] at returns
        exact returns.2.1 ▸ first
    · simp only [if_neg cuts, pure_ok, Except.ok.injEq, Prod.mk.injEq] at returns
      exact returns.2.1 ▸ related.refl data

end Operations

namespace FileLayer

variable {v : Mounts N} {b : Below N C F} {R : C → C → Prop} (l next : FileLayer P N C) (proc : P) (ret : Int)

-- What an open finds, and the entry of a descriptor with its inode.
def found (v : Mounts N) (l : FileLayer P N C) (proc : P) (path : List Char) (lookup : Except Int N) : Option N :=
  match vfsLookup v (l.fs.starts proc) l.fs.counts path ⟨0, lookup, 0, 0, .ok 0⟩ with
  | .ok (_, .ok node) => some node
  | _ => none

def held (l : FileLayer P N C) (proc : P) (fd : Int) : Option (File N × N) :=
  match fd2file (l.files proc) fd with
  | .ok (.ok (_, file)) => file.node.map fun node => (file, node)
  | _ => none

omit [DecidableEq P] [DecidableEq N] in
theorem held_of_fd (fd : Int) (index : Nat) (file acquired : File N) (node : N) (there : fd2file (l.files proc) fd = .ok (.ok (index, file)))
    (acquires : fdArrayAcquire file = .ok acquired) (named : nodeOf acquired = .ok node) :
    l.held proc fd = some (file, node) ∧ acquired = { file with openCount := file.openCount + 1 } := by
  obtain ⟨_, acquires⟩ := check_bind_ok acquires
  obtain rfl := Except.ok.inj acquires
  have stored : file.node = some node := by
    cases here : file.node <;> simp_all [nodeOf]
  exact ⟨by simp [held, there, stored], rfl⟩

theorem release_data (index : Nat) (file : File N) (data : C) (code : Int)
    (returns : (l.release v proc index file data code : Except (Panic F) _) = .ok (ret, next)) : next.data = data ∧ ret = code := by
  obtain ⟨_, _, returns⟩ := bind_ok returns
  simp only [pure_ok, Except.ok.injEq, Prod.mk.injEq] at returns
  obtain ⟨rfl, rfl⟩ := returns
  exact ⟨rfl, rfl⟩

theorem open_related (related : Related v b R) (path : List Char) (flags : BitVec 32) (copyPath : Int) (lookup : Except Int N)
    (truncate : ∀ node ∈ l.found v proc path lookup, (has flags oTrunc = true ∨ has flags oCreat = true) →
      ¬ (has flags oExcl = true ∧ has flags oCreat = true) → ¬ (has flags oTrunc = true ∧ flags &&& oAccMode = oRdOnly) →
      v.kind node = .file → ∀ ret after, b.truncate l.data node 0 = .ok (ret, after) → R l.data after)
    (returns : l.sysfileOpen v b proc path flags copyPath lookup = .ok (ret, next)) : R l.data next.data := by
  unfold sysfileOpen at returns
  by_cases copied : copyPath ≠ 0
  · rw [if_pos copied, Except.ok.injEq, Prod.mk.injEq] at returns
    exact returns.2 ▸ related.refl l.data
  rw [if_neg copied] at returns
  unfold fileOpen at returns
  by_cases badMode : flags &&& oAccMode = oAccMode
  · rw [if_pos badMode, Except.ok.injEq, Prod.mk.injEq] at returns
    exact returns.2 ▸ related.refl l.data
  rw [if_neg badMode] at returns
  obtain ⟨slot, _, returns⟩ := bind_ok returns
  cases slot with
  | error code =>
      simp only [pure_ok, Except.ok.injEq, Prod.mk.injEq] at returns
      exact returns.2 ▸ related.refl l.data
  | ok entry =>
      obtain ⟨⟨c, data, result⟩, opens, returns⟩ := bind_ok returns
      -- The rest of the call stores nothing.
      have last : next.data = data := by
        cases result with
        | error code =>
            obtain ⟨_, _, returns⟩ := bind_ok returns
            simp only [pure_ok, Except.ok.injEq, Prod.mk.injEq] at returns
            exact returns.2 ▸ rfl
        | ok node =>
            obtain ⟨_, _, returns⟩ := bind_ok returns
            obtain ⟨_, _, returns⟩ := bind_ok returns
            simp only [pure_ok, Except.ok.injEq, Prod.mk.injEq] at returns
            exact returns.2 ▸ rfl
      rw [last]
      unfold openPath at opens
      by_cases badTrunc : has flags oTrunc = true ∧ flags &&& oAccMode = oRdOnly
      · rw [if_neg badMode, if_pos badTrunc, Except.ok.injEq, Prod.mk.injEq, Prod.mk.injEq] at opens
        exact opens.2.1 ▸ related.refl l.data
      rw [if_neg badMode, if_neg badTrunc] at opens
      obtain ⟨⟨mid, target⟩, looked, opens⟩ := bind_ok opens
      rw [in_layer_ok] at looked
      cases target with
      | error code =>
          by_cases creates : code = eNoEnt ∧ has flags oCreat = true
          · simp only [if_pos creates] at opens
            obtain ⟨⟨_, dir⟩, _, opens⟩ := bind_ok opens
            cases dir with
            | error _ =>
                simp only [pure_ok, Except.ok.injEq, Prod.mk.injEq] at opens
                exact opens.2.1 ▸ related.refl l.data
            | ok _ => exact absurd opens (by simp)
          · simp only [if_neg creates, pure_ok, Except.ok.injEq, Prod.mk.injEq] at opens
            exact opens.2.1 ▸ related.refl l.data
      | ok node =>
          by_cases exclusive : has flags oExcl = true ∧ has flags oCreat = true
          · simp only [if_pos exclusive, pure_ok, Except.ok.injEq, Prod.mk.injEq] at opens
            exact opens.2.1 ▸ related.refl l.data
          · simp only [if_neg exclusive] at opens
            exact open_node_related related mid c l.data data node flags result
              (fun cuts file => truncate node (by simp [found, looked]) cuts exclusive badTrunc file) opens

theorem io_related (related : Related v b R) (fd : Int) (buf : Bytes) (len : Nat) (write : Bool)
    (io : ∀ file node, l.held proc fd = some (file, node) → (if write then file.writable else file.readable) = true →
      ∀ ret moved after, b.io l.data node buf file.pos len write = .ok (ret, moved, after) → R l.data after)
    (returns : l.fileIo v b proc fd buf len write = .ok (ret, next)) : R l.data next.data := by
  obtain ⟨slot, there, returns⟩ := bind_ok returns
  rw [in_layer_ok] at there
  cases slot with
  | error code =>
      simp only [pure_ok, Except.ok.injEq, Prod.mk.injEq] at returns
      exact returns.2 ▸ related.refl l.data
  | ok entry =>
      obtain ⟨index, file⟩ := entry
      by_cases refused : ¬ (if write = true then file.writable else file.readable) = true
      · simp only [if_pos refused, Except.ok.injEq, Prod.mk.injEq, pure_ok] at returns
        exact returns.2 ▸ related.refl l.data
      · simp only [if_neg refused] at returns
        obtain ⟨acquired, acquires, returns⟩ := bind_ok returns
        obtain ⟨node, named, returns⟩ := bind_ok returns
        obtain ⟨⟨code, moved, data⟩, transfers, returns⟩ := bind_ok returns
        rw [in_layer_ok] at acquires named
        obtain ⟨stored, rfl⟩ := l.held_of_fd proc fd index file acquired node there acquires named
        rw [(l.release_data next proc ret _ _ _ _ returns).1]
        obtain ⟨_, _, transfers⟩ := bind_ok transfers
        have direct : data = l.data ∨ below (b.io l.data node buf file.pos len write) = .ok (code, moved, data) := by
          cases kind : v.kind node with
          | device =>
              simp only [kind] at transfers
              split at transfers
              · simp only [pure_ok, Except.ok.injEq, Prod.mk.injEq] at transfers
                exact .inl transfers.2.2.symm
              · exact .inr transfers
          | dir => exact .inr (by simpa [kind] using transfers)
          | file => exact .inr (by simpa [kind] using transfers)
        rcases direct with same | moves
        · exact same ▸ related.refl l.data
        · exact io file node stored (not_not.mp refused) code moved data ((below_ok _ _).mp moves)

theorem seek_related (related : Related v b R) (fd pos whence : Int)
    (tryseek : ∀ file node target, l.held proc fd = some (file, node) → v.kind node = .file →
      l.seekTarget v b file node pos whence = .ok (.ok target) →
      ∀ ret after, b.tryseek l.data node target = .ok (ret, after) → R l.data after)
    (returns : l.fileSeek v b proc fd pos whence = .ok (ret, next)) : R l.data next.data := by
  obtain ⟨slot, there, returns⟩ := bind_ok returns
  rw [in_layer_ok] at there
  cases slot with
  | error code =>
      simp only [pure_ok, Except.ok.injEq, Prod.mk.injEq] at returns
      exact returns.2 ▸ related.refl l.data
  | ok entry =>
      obtain ⟨index, file⟩ := entry
      obtain ⟨acquired, acquires, returns⟩ := bind_ok returns
      obtain ⟨node, named, returns⟩ := bind_ok returns
      obtain ⟨target, targets, returns⟩ := bind_ok returns
      rw [in_layer_ok] at acquires named
      obtain ⟨stored, rfl⟩ := l.held_of_fd proc fd index file acquired node there acquires named
      cases target with
      | error code =>
          rw [(l.release_data next proc ret _ _ _ _ returns).1]
          exact related.refl l.data
      | ok target =>
          obtain ⟨⟨code, data⟩, seeks, returns⟩ := bind_ok returns
          rw [(l.release_data next proc ret _ _ _ _ returns).1]
          obtain ⟨_, dispatched, seeks⟩ := bind_ok seeks
          have known := vop_op_kind dispatched
          cases kind : v.kind node with
          | device =>
              simp only [kind, if_true, pure_ok, Except.ok.injEq, Prod.mk.injEq] at seeks
              exact seeks.2 ▸ related.refl l.data
          | dir => simp [kind, InodeKind.inOps] at known
          | file =>
              simp only [kind, reduceCtorEq, if_false, below_ok] at seeks
              exact tryseek file node target stored kind (by simpa [seekTarget] using targets) code data seeks

theorem fsync_related (related : Related v b R) (fd : Int) (returns : l.fileFsync v b proc fd = .ok (ret, next)) : R l.data next.data := by
  obtain ⟨slot, there, returns⟩ := bind_ok returns
  cases slot with
  | error code =>
      simp only [pure_ok, Except.ok.injEq, Prod.mk.injEq] at returns
      exact returns.2 ▸ related.refl l.data
  | ok entry =>
      obtain ⟨_, _, returns⟩ := bind_ok returns
      obtain ⟨node, _, returns⟩ := bind_ok returns
      obtain ⟨_, dispatched, returns⟩ := bind_ok returns
      obtain ⟨⟨code, data⟩, syncs, returns⟩ := bind_ok returns
      rw [(l.release_data next proc ret _ _ _ _ returns).1]
      rw [below_ok] at syncs
      refine related.fsync l.data node code data (fun device => ?_) syncs
      have known := vop_op_kind dispatched
      simp [device, InodeKind.inOps] at known

theorem getdirentry_related (related : Related v b R) (fd offset : Int) (returns : l.fileGetdirentry v b proc fd offset = .ok (ret, next)) :
    R l.data next.data := by
  obtain ⟨slot, there, returns⟩ := bind_ok returns
  cases slot with
  | error code =>
      simp only [pure_ok, Except.ok.injEq, Prod.mk.injEq] at returns
      exact returns.2 ▸ related.refl l.data
  | ok entry =>
      obtain ⟨_, _, returns⟩ := bind_ok returns
      obtain ⟨node, _, returns⟩ := bind_ok returns
      obtain ⟨_, _, returns⟩ := bind_ok returns
      obtain ⟨⟨code, data⟩, reads, returns⟩ := bind_ok returns
      rw [(l.release_data next proc ret _ _ _ _ returns).1]
      exact related.getdirentry l.data node offset code data ((below_ok _ _).mp reads)

theorem fstat_related (related : Related v b R) (fd : Int) (returns : l.fileFstat v b proc fd = .ok (ret, next)) : R l.data next.data := by
  obtain ⟨slot, there, returns⟩ := bind_ok returns
  cases slot with
  | error code =>
      simp only [pure_ok, Except.ok.injEq, Prod.mk.injEq] at returns
      exact returns.2 ▸ related.refl l.data
  | ok entry =>
      obtain ⟨_, _, returns⟩ := bind_ok returns
      obtain ⟨_, _, returns⟩ := bind_ok returns
      obtain ⟨_, _, returns⟩ := bind_ok returns
      rw [(l.release_data next proc ret _ _ _ _ returns).1]
      exact related.refl l.data

theorem close_related (related : Related v b R) (fd : Int) (returns : l.fileClose v b proc fd = .ok (ret, next)) : R l.data next.data := by
  obtain ⟨slot, there, returns⟩ := bind_ok returns
  cases slot with
  | error code =>
      simp only [pure_ok, Except.ok.injEq, Prod.mk.injEq] at returns
      exact returns.2 ▸ related.refl l.data
  | ok entry =>
      obtain ⟨⟨c, closed⟩, _, returns⟩ := bind_ok returns
      obtain ⟨node, _, returns⟩ := bind_ok returns
      obtain ⟨data, closes, returns⟩ := bind_ok returns
      simp only [pure_ok, Except.ok.injEq, Prod.mk.injEq] at returns
      obtain ⟨_, rfl⟩ := returns
      by_cases last : closed.status = .none
      · rw [if_pos last] at closes
        exact close_data_related related c l.data data node closes
      · rw [if_neg last] at closes
        exact Except.ok.inj closes ▸ related.refl l.data

theorem dup_data (fd1 fd2 : Int) (returns : (l.fileDup proc fd1 fd2 : Except (Panic F) _) = .ok (ret, next)) : next.data = l.data := by
  obtain ⟨_, _, returns⟩ := bind_ok returns
  simp only [pure_ok, Except.ok.injEq, Prod.mk.injEq] at returns
  exact returns.2 ▸ rfl

end FileLayer

end Ucore.Vfs
