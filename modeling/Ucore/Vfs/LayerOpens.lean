import Ucore.Vfs.LayerHandled

set_option autoImplicit false

namespace Ucore.Vfs

open Ucore.Lib

variable {P N C F : Type} [DecidableEq P] [DecidableEq N]

theorem has_or (flags first second : BitVec 32) : has flags (first ||| second) = (has flags first || has flags second) := by
  have both : flags &&& (first ||| second) = 0 ↔ flags &&& first = 0 ∧ flags &&& second = 0 := by
    rw [BitVec.and_or_distrib_left]
    exact BitVec.or_eq_zero_iff
  rw [Bool.eq_iff_iff, Bool.or_eq_true]
  simp only [has, decide_eq_true_eq, ne_eq, both, not_and_or]

omit [DecidableEq N] in
theorem alloc_error_negative (files : FilesStruct N) (fd ret : Int) (returns : fdArrayAlloc files fd = .ok (.error ret)) : ret < 0 := by
  obtain ⟨_, returns⟩ := check_bind_ok returns
  simp only at returns
  split at returns
  · simp only [pure_ok, Except.ok.injEq, Except.error.injEq] at returns
    rw [← returns]
    split <;> decide
  · rename_i index file _
    by_cases free : file.status = .none
    · simp only [if_pos free] at returns
      obtain ⟨_, returns⟩ := check_bind_ok returns
      simp at returns
    · simp only [if_neg free, pure_ok, Except.ok.injEq, Except.error.injEq] at returns
      exact returns ▸ by decide

omit [DecidableEq N] in
theorem alloc_ok (files : FilesStruct N) (ready : Ready files) (fd : Int) : ∃ slot, fdArrayAlloc files fd = .ok slot := by
  refine fd_array_alloc_ok files fd (by simp [ready.count]) fun index free => ?_
  rw [List.getD_eq_getElem?_getD] at free ⊢
  cases there : files.fdArray[index]? with
  | none => rfl
  | some file =>
      rw [there, Option.getD_some] at free
      exact (idle_of_settled file (ready.settled file (List.mem_of_getElem? there)) (by simp [free])).2

section Nodes

variable {v : Mounts N} {b : Below N C F} {c₀ c : Counts N}

-- The code of vop_open, and what follows for the rest of vfs_open.
omit [DecidableEq N] in
theorem vop_open_code (room : Room v c 0) (node : N) (flags : BitVec 32) (ans : Answers N) (asked : ans.devOpen = (b.device node).dopOpen flags)
    (readable : ¬ (has flags oTrunc = true ∧ flags &&& oAccMode = oRdOnly))
    (fits : has flags oCreat = true → v.kind node = .dir → flags &&& oAccMode ≠ oRdOnly ∨ has flags oAppend = true) :
    ∃ ret, vopOpen v c node flags ans = .ok ret ∧
      ((ret < 0 ∧ v.kind node ≠ .file) ∨
        (ret = 0 ∧ ¬ FileLayer.Refuses v b node flags ∧ (v.kind node = .dir → flags &&& oAccMode = oRdOnly) ∧
          (has flags oTrunc = true ∨ has flags oCreat = true → v.kind node = .file))) := by
  have checked := inode_check_ok room (le_refl 0) node
  simp only [vopOpen, checked, ok_bind]
  cases kind : v.kind node with
  | file => exact ⟨0, rfl, .inr ⟨rfl, by simp [FileLayer.Refuses, kind], by simp, by simp⟩⟩
  | dir =>
      by_cases mode : flags &&& oAccMode ≠ oRdOnly
      · exact ⟨eIsDir, by simp [mode], .inl ⟨by decide, by simp⟩⟩
      by_cases appends : has flags oAppend = true
      · exact ⟨eIsDir, by simp [mode, appends], .inl ⟨by decide, by simp⟩⟩
      have creates : ¬ has flags oCreat = true := fun creates => (fits creates kind).elim mode appends
      have truncates : ¬ has flags oTrunc = true := fun truncates => readable ⟨truncates, not_not.mp mode⟩
      refine ⟨0, by simp [mode, appends], .inr ⟨rfl, ?_, fun _ => not_not.mp mode, ?_⟩⟩
      · simp [FileLayer.Refuses, kind, mode, appends, creates]
      · simp [truncates, creates]
  | device =>
      by_cases barred : has flags (oCreat ||| oTrunc ||| oExcl ||| oAppend) = true
      · exact ⟨eInval, by simp [barred], .inl ⟨inval_negative, by simp⟩⟩
      cases open_code (b.device node) flags with
      | inr closed => exact ⟨eInval, by simp [barred, asked, closed], .inl ⟨inval_negative, by simp⟩⟩
      | inl opened =>
          refine ⟨0, by simp [barred, asked, opened], .inr ⟨rfl, by simp [FileLayer.Refuses, kind, barred, opened], by simp, ?_⟩⟩
          simp only [has_or, Bool.or_eq_true, not_or] at barred
          simp [barred]

omit [DecidableEq N] in
theorem close_data_ends {unsupported : Prop} {post : C → Prop} (data : C) (node : N) (supported : ¬ unsupported) (holds : ∀ data, post data) :
    Ends (Stops unsupported) post (closeData v b c data node : Except (Panic F) C) := by
  have reclaims : ∀ data, Ends (Stops unsupported) post (reclaimData v b c data node : Except (Panic F) C) := by
    intro data
    unfold reclaimData
    split
    · exact ends_below supported fun reclaimed _ => holds reclaimed
    · exact ends_ok rfl (holds data)
  refine ends_bind ?_
  split
  · exact ends_below supported fun reply _ => reclaims reply.2
  · exact ends_ok rfl (reclaims data)

-- vfs_open of an inode that a lookup has just found.
theorem open_node_ends (room : Room v c₀ 4) (node : N) (moved : Moved c₀ c (hit node) still) (data : C) (flags : BitVec 32)
    (clean : ∀ data node, v.kind node = .dir → b.reclaim data node = .ok data)
    (readable : ¬ (has flags oTrunc = true ∧ flags &&& oAccMode = oRdOnly))
    (fits : has flags oCreat = true → v.kind node = .dir → flags &&& oAccMode ≠ oRdOnly ∨ has flags oAppend = true) :
    Ends (Stops (FileLayer.Refuses v b node flags)) (fun (_, next, result) =>
      match result with
      | .ok found => found = node ∧ ¬ FileLayer.Refuses v b node flags ∧ (v.kind node = .dir → flags &&& oAccMode = oRdOnly)
      | .error ret => FileLayer.Refuses v b node flags → ret < 0 ∧ next = data) (openNode v b c data node flags) := by
  have roomNow := room_moved room (hit node) still 1 moved fun other => by
    obtain ⟨first, second⟩ := hit_bounds node other
    simp only [still]
    omega
  obtain ⟨ret, opens, outcome⟩ := vop_open_code (b := b) (room_weaken roomNow 0 (by decide)) node flags
    ⟨0, .ok node, (b.device node).dopOpen flags, 0, .ok 0⟩ rfl readable fits
  refine ends_bind (ends_in_layer opens ?_)
  cases outcome with
  | inl refused =>
      obtain ⟨negative, notFile⟩ := refused
      have failed : ret ≠ 0 := by omega
      obtain ⟨after, dec⟩ := ref_dec_ok room _ _ moved node fun other => by
        obtain ⟨first, second⟩ := hit_bounds node other
        simp only [still]
        omega
      have reclaims : (reclaimData v b after data node : Except (Panic F) C) = .ok data := by
        unfold reclaimData
        split
        · rename_i gone
          have dir : v.kind node = .dir := by
            cases kind : v.kind node <;> simp [kind] at notFile gone ⊢
          rw [clean data node dir]
          rfl
        · rfl
      simp only [if_pos failed]
      exact ends_bind (ends_in_layer dec (ends_bind (ends_ok reclaims (ends_ok rfl fun _ => ⟨negative, rfl⟩))))
  | inr accepted =>
      obtain ⟨rfl, supported, mode, files⟩ := accepted
      simp only [ne_eq, not_true_eq_false, if_false]
      by_cases cuts : has flags oTrunc = true ∨ has flags oCreat = true
      · have opened : Moved c₀ (openInc c node) (hit node) (hit node) := by
          apply (moved.trans (open_inc_moved c node)).congr <;> intro other <;> simp [still]
        have roomOpen := room_moved room (hit node) (hit node) 1 opened fun other => by
          obtain ⟨first, second⟩ := hit_bounds node other
          omega
        simp only [if_pos cuts]
        refine ends_bind (ends_vop_op (by simp [files cuts, InodeKind.inOps]) (inode_check_ok roomOpen (by decide) node) ?_)
        refine ends_bind (ends_below supported fun reply _ => ?_)
        by_cases failed : reply.1 ≠ 0
        · obtain ⟨closed, closes⟩ := vfs_close_ok room node (hit node) (hit node) opened fun other => by
            obtain ⟨first, second⟩ := hit_bounds node other
            omega
          simp only [if_pos failed]
          refine ends_bind (ends_in_layer closes (ends_bind (close_data_ends _ node supported fun _ => ?_)))
          exact ends_ok rfl fun refused => absurd refused supported
        · simp only [if_neg failed]
          exact ends_ok rfl ⟨rfl, supported, mode⟩
      · simp only [if_neg cuts]
        exact ends_ok rfl ⟨rfl, supported, mode⟩

end Nodes

namespace FileLayer

variable {v : Mounts N} {b : Below N C F} {l : FileLayer P N C} {proc : P}

-- vfs_open: what the counts hold more, and what an open that is not supported gets.
def Opening (v : Mounts N) (l : FileLayer P N C) (unsupported : Prop) (flags : BitVec 32) : Counts N × C × Except Int N → Prop
  | (c, _, .ok node) => Moved l.fs.counts c (hit node) (hit node) ∧ ¬ unsupported ∧ (v.kind node = .dir → flags &&& oAccMode = oRdOnly)
  | (c, data, .error ret) => ∃ left : N → Int, (∀ node, 0 ≤ left node) ∧ Moved l.fs.counts c left still ∧
      (unsupported → ret < 0 ∧ data = l.data ∧ ∀ node, left node = 0)

omit [DecidableEq P] in
theorem open_path_ends (mounted : WellMounted v) (placed : Placed v (l.fs.starts proc)) (room : Room v l.fs.counts 4)
    (clean : ∀ data node, v.kind node = .dir → b.reclaim data node = .ok data) (path : List Char) (flags : BitVec 32) (lookup : Except Int N)
    (fits : l.Fits v (.openFile proc path flags 0 lookup)) (free : ∃ file ∈ (l.files proc).fdArray, file.status = .none) (unsupported : Prop)
    (refuses : unsupported ↔ ∃ node ∈ l.found v proc path lookup, Refuses v b node flags) :
    Ends (Stops unsupported) (Opening v l unsupported flags) (openPath v b (l.fs.starts proc) l.fs.counts l.data path flags lookup) := by
  have nothing : ∀ ret, ret < 0 → Opening v l unsupported flags (l.fs.counts, l.data, .error ret) := fun ret negative =>
    ⟨still, fun _ => le_refl 0, moved_refl l.fs.counts, fun _ => ⟨negative, rfl, fun _ => rfl⟩⟩
  unfold openPath
  by_cases badMode : flags &&& oAccMode = oAccMode
  · rw [if_pos badMode]
    exact ends_ok rfl (nothing eInval inval_negative)
  by_cases badTrunc : has flags oTrunc = true ∧ flags &&& oAccMode = oRdOnly
  · rw [if_neg badMode, if_pos badTrunc]
    exact ends_ok rfl (nothing eInval inval_negative)
  rw [if_neg badMode, if_neg badTrunc]
  have reached := fits ⟨rfl, badMode, badTrunc, free⟩
  obtain ⟨mid, target, looks⟩ := vfs_lookup_ok mounted placed room path ⟨0, lookup, 0, 0, .ok 0⟩
  have located := vfs_lookup_found v (l.fs.starts proc) l.fs.counts mid path _ target looks
  have answered : l.looked v proc path lookup = target := by simp [looked, looks]
  rw [answered] at reached
  refine ends_bind (ends_in_layer looks ?_)
  cases target with
  | error ret =>
      have created : ¬ (ret = eNoEnt ∧ has flags oCreat = true) := fun both => reached both.2 both.1
      have supported : ¬ unsupported := by
        intro refused
        obtain ⟨_, here, _⟩ := refuses.mp refused
        simp [found, looks] at here
      simp only [if_neg created]
      exact ends_ok rfl ⟨still, fun _ => le_refl 0, located, fun refused => absurd refused supported⟩
  | ok node =>
      have here : l.found v proc path lookup = some node := by simp [found, looks]
      have same : unsupported ↔ Refuses v b node flags := refuses.trans (by simp [here])
      by_cases exclusive : has flags oExcl = true ∧ has flags oCreat = true
      · have file : v.kind node = .file := by simpa [Creates, exclusive.1] using reached exclusive.2
        have supported : ¬ unsupported := fun refused => by simpa [Refuses, file] using same.mp refused
        simp only [if_pos exclusive]
        exact ends_ok rfl ⟨hit node, fun other => (hit_bounds node other).1, located, fun refused => absurd refused supported⟩
      · simp only [if_neg exclusive]
        have fitsNode : has flags oCreat = true → v.kind node = .dir → flags &&& oAccMode ≠ oRdOnly ∨ has flags oAppend = true := by
          intro creates
          have excl : ¬ has flags oExcl = true := fun excl => exclusive ⟨excl, creates⟩
          simpa [Creates, excl] using reached creates
        have ends := open_node_ends room node located l.data flags clean badTrunc fitsNode
        rw [same]
        refine ends_mono ends fun reply opens outcome => ?_
        obtain ⟨c', next, result⟩ := reply
        obtain ⟨ans, _, opened⟩ := open_node_answered l.data next node flags result lookup opens
        have moved := vfs_open_node_found v mid c' node flags ans result opened
        cases result with
        | error ret =>
            refine ⟨still, fun _ => le_refl 0, ?_, fun refused => ⟨(outcome refused).1, (outcome refused).2, fun _ => rfl⟩⟩
            apply (Moved.trans located moved).congr <;> intro other <;> simp [still]
        | ok opened =>
            obtain ⟨rfl, supported, mode⟩ := outcome
            refine ⟨?_, supported, mode⟩
            apply (Moved.trans located moved.2).congr <;> intro other <;> simp [still]

omit [DecidableEq N] in
theorem idle_mode (v : Mounts N) (file : File N) (idle : Idle file) : ModeOk v file := by
  intro node opened
  exact absurd opened (by simp [idle.1])

theorem open_answers (mounted : WellMounted v) (room : Room v l.fs.counts 4) (inv : l.LayerInv v) (member : proc ∈ l.fs.procs)
    (clean : ∀ data node, v.kind node = .dir → b.reclaim data node = .ok data) (path : List Char) (flags : BitVec 32) (copyPath : Int)
    (lookup : Except Int N) (fits : l.Fits v (.openFile proc path flags copyPath lookup)) :
    Ends (Stops (l.Unsupported v b (.openFile proc path flags copyPath lookup))) (Replies v l (l.Unsupported v b (.openFile proc path flags copyPath lookup)))
      (l.sysfileOpen v b proc path flags copyPath lookup) := by
  unfold sysfileOpen
  by_cases copied : copyPath ≠ 0
  · rw [if_pos copied]
    exact ends_ok rfl ⟨fun refused => absurd refused.1 copied, inv⟩
  rw [if_neg copied]
  obtain rfl : copyPath = 0 := not_not.mp copied
  generalize refuses : l.Unsupported v b (.openFile proc path flags 0 lookup) = unsupported
  have exact' : unsupported ↔ ∃ node ∈ l.found v proc path lookup, Refuses v b node flags := by
    rw [← refuses]
    exact ⟨fun refused => refused.2, fun refused => ⟨rfl, refused⟩⟩
  unfold fileOpen
  by_cases badMode : flags &&& oAccMode = oAccMode
  · rw [if_pos badMode]
    exact ends_ok rfl ⟨fun _ => ⟨inval_negative, unchanged_refl l⟩, inv⟩
  rw [if_neg badMode]
  have ready := inv_ready inv member
  obtain ⟨slot, allocs⟩ := alloc_ok (l.files proc) ready noFd
  refine ends_bind (ends_in_layer allocs ?_)
  cases slot with
  | error ret => exact ends_ok rfl ⟨fun _ => ⟨alloc_error_negative _ _ ret allocs, unchanged_refl l⟩, inv⟩
  | ok entry =>
      obtain ⟨index, file⟩ := entry
      obtain ⟨old, there, none', taken, unopened⟩ := fd_array_alloc_spec _ _ index file allocs
      have inside := List.mem_of_getElem? there
      have free : Idle old := idle_of_settled old (ready.settled old inside) (by simp [none'])
      refine ends_bind (ends_mono (open_path_ends mounted (inv.placed proc member) room clean path flags lookup fits ⟨old, inside, none'⟩
        unsupported exact') fun reply _ opening => ?_)
      obtain ⟨c, data, result⟩ := reply
      cases result with
      | error ret =>
          obtain ⟨left, nonneg, moved, quiet⟩ := opening
          have frees : fdArrayFree v c file = .ok (c, { file with status := .none }) := by simp [fdArrayFree, taken, unopened]
          have idle : Idle { file with status := .none } := ⟨rfl, unopened⟩
          refine ends_bind (ends_in_layer frees (ends_ok rfl ⟨fun refused => ?_, ?_⟩))
          · obtain ⟨negative, rfl, zero⟩ := quiet refused
            obtain rfl := moved_still l.fs.counts c (moved.congr zero fun _ => rfl)
            exact ⟨negative, put_unchanged index old { file with status := .none } there (by simp [entryView, none'])⟩
          · refine put_inv inv member c data index old { file with status := .none } left there (.inl idle) (idle_mode v _ idle) nonneg ?_
            apply moved.congr <;> intro node <;> simp [idle_hold _ idle, idle_hold old free, still]
      | ok node =>
          obtain ⟨moved, supported, mode⟩ := opening
          have roomOpen := room_moved room (hit node) (hit node) 1 moved fun other => by
            obtain ⟨first, second⟩ := hit_bounds node other
            omega
          have opened : ∀ pos, Ends (Stops unsupported) (Replies v l unsupported) (do
              let file ← inLayer (fdArrayOpen { file with
                pos := pos
                node := some node
                readable := flags &&& oAccMode ≠ oWrOnly
                writable := flags &&& oAccMode ≠ oRdOnly })
              (return ((index : Int), l.put proc c data index file) : Except (Panic F) (Int × FileLayer P N C))) := by
            intro pos
            have takes : fdArrayOpen { file with
                pos := pos
                node := some node
                readable := flags &&& oAccMode ≠ oWrOnly
                writable := flags &&& oAccMode ≠ oRdOnly } = .ok { file with
                  status := .opened
                  readable := flags &&& oAccMode ≠ oWrOnly
                  writable := flags &&& oAccMode ≠ oRdOnly
                  pos := pos
                  node := some node
                  openCount := file.openCount + 1 } := by simp [fdArrayOpen, taken]
            refine ends_bind (ends_in_layer takes (ends_ok rfl ⟨fun refused => absurd refused supported, ?_⟩))
            refine put_inv inv member c data index old _ still there (.inr ⟨rfl, by simp [unopened], node, rfl⟩) ?_ (fun _ => le_refl 0) ?_
            · intro other _ same dir
              obtain rfl : node = other := Option.some.inj same
              simp [mode dir]
            · apply moved.congr <;> intro other <;> rw [idle_hold old free] <;> simp [fileHold, hit, hitOption, still, eq_comm]
          refine ends_bind ?_
          split
          · exact fstat_ends (room_weaken roomOpen 0 (by decide)) data node opened
          · exact ends_ok rfl (opened 0)

theorem dup_answers (inv : l.LayerInv v) (member : proc ∈ l.fs.procs) (fd1 fd2 : Int) :
    Ends (Stops False) (Replies v l False) (l.fileDup proc fd1 fd2 : Except (Panic F) _) := by
  have ready := inv_ready inv member
  refine ends_bind ?_
  cases fd_cases inv member fd1 with
  | inl missing =>
      obtain ⟨ret, finds, _⟩ := missing
      have dups : l.fs.fileDup proc fd1 fd2 = .ok (ret, l.fs) := by
        rw [FsState.fileDup, show fd2file (l.fs.filesp proc) fd1 = .ok (.error ret) from finds]
        rfl
      exact ends_in_layer dups (ends_ok rfl ⟨False.elim, inv⟩)
  | inr there =>
      obtain ⟨_, origin, node, entry⟩ := there
      obtain ⟨slot, allocs⟩ := alloc_ok (l.files proc) ready fd2
      cases slot with
      | error ret =>
          have dups : l.fs.fileDup proc fd1 fd2 = .ok (ret, l.fs) := by
            rw [FsState.fileDup, show fd2file (l.fs.filesp proc) fd1 = .ok (.ok (_, origin)) from entry.found, ok_bind,
              show fdArrayAlloc (l.fs.filesp proc) fd2 = .ok (.error ret) from allocs]
            rfl
          exact ends_in_layer dups (ends_ok rfl ⟨False.elim, inv⟩)
      | ok target =>
          obtain ⟨index, file⟩ := target
          obtain ⟨old, there, none', taken, unopened⟩ := fd_array_alloc_spec _ _ index file allocs
          have free : Idle old := idle_of_settled old (ready.settled old (List.mem_of_getElem? there)) (by simp [none'])
          have copies : fdArrayDup l.fs.counts file origin = .ok (openInc (refInc l.fs.counts node) node, { origin with openCount := file.openCount + 1 }) := by
            simp [fdArrayDup, fdArrayOpen, taken, entry.opened, entry.named]
          obtain ⟨moved, settled, hold⟩ := fd_array_dup_moved l.fs.counts _ file _ origin unopened entry.opened copies
          have dups : l.fs.fileDup proc fd1 fd2 = .ok ((index : Int), (l.put proc (openInc (refInc l.fs.counts node) node) l.data index
              { origin with openCount := file.openCount + 1 }).fs) := by
            rw [FsState.fileDup, show fd2file (l.fs.filesp proc) fd1 = .ok (.ok (_, origin)) from entry.found, ok_bind,
              show fdArrayAlloc (l.fs.filesp proc) fd2 = .ok (.ok (index, file)) from allocs]
            simp only [ok_bind, copies, pure_ok]
            rfl
          refine ends_in_layer dups (ends_ok rfl ⟨False.elim, ?_⟩)
          refine put_inv inv member _ l.data index old _ still there settled ?_ (fun _ => le_refl 0) ?_
          · exact inv.modes proc member origin (List.mem_of_getElem? entry.there)
          · apply moved.congr <;> intro other <;> rw [idle_hold old free, hold other] <;> simp [still]

theorem close_answers (mounted : WellMounted v) (few : ∀ node, l.fs.counts.refCount node + 4 < maxInodeCount) (inv : l.LayerInv v)
    (member : proc ∈ l.fs.procs) (fd : Int) : Ends (Stops False) (Replies v l False) (l.fileClose v b proc fd) := by
  have ready := inv_ready inv member
  cases fd_cases inv member fd with
  | inl missing =>
      obtain ⟨ret, finds, _⟩ := missing
      exact ends_bind (ends_in_layer finds (ends_ok rfl ⟨False.elim, inv⟩))
  | inr there =>
      obtain ⟨index, file, node, entry⟩ := there
      have inside := List.mem_of_getElem? entry.there
      have hold : ∀ other, fileHold file other = hit node other := by
        intro other
        simp [fileHold, entry.opened, entry.named, hit, hitOption, eq_comm]
      -- The counts without this entry have room, and it comes back to them.
      have room := inv_room mounted inv few (hit node) fun other => by
        have first := file_hold_le (l.files proc).fdArray file inside other
        have second := table_hold_le l.fs proc member other
        rw [hold other] at first
        exact ⟨(hit_bounds node other).1, first.trans second⟩
      have back : Moved ⟨fun other => l.fs.counts.refCount other - hit node other, fun other => l.fs.counts.openCount other - hit node other⟩
          l.fs.counts (hit node) (hit node) := ⟨fun other => by simp, fun other => by simp⟩
      obtain ⟨c, closes⟩ := vfs_close_ok room node (hit node) (hit node) back fun other => by
        obtain ⟨first, second⟩ := hit_bounds node other
        omega
      have shuts : fdArrayClose v l.fs.counts file = .ok (c, { file with status := .none, openCount := file.openCount - 1 }) := by
        simp [fdArrayClose, fdArrayFree, entry.opened, entry.once, entry.named, closes]
      obtain ⟨moved, idle⟩ := fd_array_close_moved v l.fs.counts c file _ (ready.settled file inside) entry.opened shuts
      have done : ∀ data, Replies v l False (0, l.put proc c data index { file with status := .none, openCount := file.openCount - 1 }) := by
        intro data
        refine ⟨False.elim, put_inv inv member c data index file _ still entry.there (.inl idle) (idle_mode v _ idle) (fun _ => le_refl 0) ?_⟩
        apply moved.congr <;> intro other <;> rw [idle_hold _ idle] <;> simp [still]
      refine ends_bind (ends_in_layer entry.found (ends_bind (ends_in_layer shuts ?_)))
      refine ends_bind (ends_in_layer (node_of_ok file node entry.named) (ends_bind ?_))
      exact close_data_ends l.data node not_false fun data => ends_ok rfl (done data)

end FileLayer

end Ucore.Vfs
