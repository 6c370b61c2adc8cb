import Ucore.Vfs.TableInv

set_option autoImplicit false

namespace Ucore.Vfs

open Ucore.Lib

section Entries

variable {N : Type} [DecidableEq N]

omit [DecidableEq N] in
theorem fd_array_alloc_ok (files : FilesStruct N) (fd : Int) (count : 0 < files.filesCount)
    (unused : ∀ index, (files.fdArray.getD index (fileNone N)).status = .none → (files.fdArray.getD index (fileNone N)).openCount = 0) :
    ∃ result, fdArrayAlloc files fd = .ok result := by
  unfold fdArrayAlloc
  simp only [count, decide_true, check_true, ok_bind]
  split
  · exact ⟨_, rfl⟩
  · rename_i index file found
    by_cases free : file.status = .none
    · obtain ⟨place, _, got⟩ := Option.bind_eq_some_iff.mp found
      obtain ⟨entry, there, pair⟩ := Option.map_eq_some_iff.mp got
      obtain ⟨rfl, rfl⟩ := Prod.mk.inj pair
      have zero := unused place
      simp only [List.getD_eq_getElem?_getD, there, Option.getD_some] at zero
      exact ⟨_, by simp [free, zero free]; rfl⟩
    · exact ⟨_, by simp [free]; rfl⟩

omit [DecidableEq N] in
theorem fd2file_ok (files : FilesStruct N) (fd : Int) (count : 0 < files.filesCount) : ∃ result, fd2file files fd = .ok result := by
  unfold fd2file
  by_cases inside : 0 ≤ fd ∧ fd < filesStructNentry
  · simp only [if_pos inside, count, decide_true, check_true, ok_bind]
    cases files.fdArray[fd.toNat]? with
    | none => exact ⟨_, rfl⟩
    | some file => exact ⟨_, rfl⟩
  · exact ⟨_, if_neg inside⟩

end Entries

namespace SharedTable

variable {P N : Type} [DecidableEq P] [DecidableEq N]

section Entries

variable {procs : List P} {s : SharedTable P N} {proc : P}

omit [DecidableEq P] [DecidableEq N] in
theorem entry_of_get (index : Nat) (file : File N) (there : s.files.fdArray[index]? = some file) :
    s.entry index = file ∧ index < s.files.fdArray.length := by
  obtain ⟨inside, _⟩ := List.getElem?_eq_some_iff.mp there
  exact ⟨by simp [entry, there], inside⟩

omit [DecidableEq P] [DecidableEq N] in
theorem idle_phase (free : s.idle proc = true) : s.phase proc = .idle := by
  unfold idle at free
  cases phase : s.phase proc with
  | idle => rfl
  | busy index work => simp [phase] at free

-- While a call opens an entry, nobody else has it.
omit [DecidableEq P] in
theorem opening_slot (inv : TableInv procs s) (member : proc ∈ procs) (index : Nat) (work : Work N) (phase : s.phase proc = .busy index work)
    (opens : work.sort = .opening) :
    (s.entry index).status = .init ∧ (s.entry index).openCount = 0 ∧ s.tally procs .opening index = 1 ∧ s.tally procs .flying index = 0 ∧
      s.tally procs .freeing index = 0 := by
  have slot := inv.slots index
  have one := tally_le (s := s) member .opening index
  simp only [phase, tally_busy, opens, if_true] at one
  cases status : (s.entry index).status with
  | none =>
      simp only [Slot, status] at slot
      omega
  | init =>
      simp only [Slot, status] at slot
      exact ⟨rfl, slot.1, slot.2.1, slot.2.2.1, slot.2.2.2⟩
  | opened =>
      simp only [Slot, status] at slot
      omega
  | closed =>
      simp only [Slot, status] at slot
      omega

omit [DecidableEq P] in
theorem unused_entries (inv : TableInv procs s) (index : Nat) (free : (s.entry index).status = .none) : (s.entry index).openCount = 0 := by
  have slot := inv.slots index
  simp only [Slot, free] at slot
  exact slot.1

-- The calls that begin an open give back the entry when the open fails.
theorem undo_inv (inv : TableInv procs s) (nodup : procs.Nodup) (member : proc ∈ procs) (index : Nat) (work : Work N)
    (phase : s.phase proc = .busy index work) (opens : work.sort = .opening) (ret : Int) :
    ∃ next, s.beginFree proc index (s.entry index) ret = .ok (some ret, next) ∧ TableInv procs next := by
  obtain ⟨status, count, opening, flying, freeing⟩ := opening_slot inv member index work phase opens
  obtain ⟨inside, _⟩ := busy_inside inv member index work phase
  refine ⟨s.put proc index { s.entry index with status := .none } .idle, ?_, ?_⟩
  · simp [beginFree, status, count]
  · refine inv.update nodup member index _ .idle s.opens s.closes s.handed inside (.inr ⟨work, phase⟩) (.inl rfl) ?_ (.inl rfl) (by simp)
      (fun _ _ _ => ⟨rfl, rfl⟩) ?_ inv.handed
    · simp [Slot, tally_idle, tally_busy, phase, opens, count, opening, flying, freeing]
    · intro node
      have before := inv.closes index node
      simpa [Live, status] using before

-- The last call lets go of a closed entry and closes its inode.
theorem close_inv (inv : TableInv procs s) (nodup : procs.Nodup) (member : proc ∈ procs) (index : Nat) (file : File N) (ret : Int)
    (inside : index < s.files.fdArray.length) (was : TablePhase.On (s.phase proc) index) (live : Live (s.entry index))
    (status : file.status = .closed) (count : file.openCount = 0) (same : file.node = (s.entry index).node)
    (opening : s.tally procs .opening index - (s.phase proc).tally .opening index = 0)
    (flying : s.tally procs .flying index - (s.phase proc).tally .flying index = 0)
    (freeing : s.tally procs .freeing index - (s.phase proc).tally .freeing index = 0) (named : (s.entry index).node ≠ none) :
    ∃ next, s.beginFree proc index file ret = .ok (none, next) ∧ TableInv procs next := by
  obtain ⟨node, has⟩ := Option.ne_none_iff_exists'.mp named
  have node' : file.node = some node := same.trans has
  refine ⟨{ s.put proc index file (.busy index (.freeing ret)) with closes := bump s.closes index node }, ?_, ?_⟩
  · simp [beginFree, status, count, node']
  · refine inv.update nodup member index file _ s.opens (bump s.closes index node) s.handed inside was (.inr ⟨_, rfl⟩) ?_ (.inl same) (by simp)
      ?_ ?_ inv.handed
    · simp only [Slot, status, tally_busy, Work.sort, reduceCtorEq, if_true, if_false, add_zero]
      refine ⟨by omega, by omega, ?_, by simp [node']⟩
      rw [if_pos (by omega)]
      omega
    · intro there other apart
      simp [bump, apart]
    · intro other
      have before := inv.closes index other
      have dead : ¬ Live file := by simp [Live, status, count]
      simp only [live, has, true_and, Option.some.injEq] at before
      simp only [dead, false_and, if_false, add_zero, bump, true_and]
      by_cases equal : other = node
      · subst equal
        simpa using before
      · simpa [equal, Ne.symm equal] using before

theorem acquire_inv (inv : TableInv procs s) (nodup : procs.Nodup) (member : proc ∈ procs) (idle : s.phase proc = .idle) (index : Nat)
    (file : File N) (there : s.files.fdArray[index]? = some file) (opened : file.status = .opened) (op : InOp) :
    ∃ next node, s.acquire proc index file op = .ok (none, next) ∧ TableInv procs next ∧ next.phase proc = .busy index (.inOp op node) := by
  obtain ⟨same, inside⟩ := entry_of_get index file there
  have slot := inv.slots index
  simp only [Slot, same, opened] at slot
  obtain ⟨node, named⟩ := Option.ne_none_iff_exists'.mp slot.2.2.2
  refine ⟨s.put proc index { file with openCount := file.openCount + 1 } (.busy index (.inOp op node)), node, ?_, ?_, by simp [put]⟩
  · simp [acquire, opened, named]
  · refine inv.update nodup member index _ _ s.opens s.closes s.handed inside (.inl idle) (.inr ⟨_, rfl⟩) ?_ (.inl (by simp [same])) ?_
      (fun _ _ _ => ⟨rfl, rfl⟩) ?_ inv.handed
    · simp only [Slot, opened, tally_busy, tally_idle, Work.sort, idle, reduceCtorEq, if_true, if_false, add_zero, sub_zero]
      exact ⟨by omega, slot.2.1, slot.2.2.1, slot.2.2.2⟩
    · intro op' node' equal
      obtain ⟨_, work⟩ := TablePhase.busy.inj equal
      obtain ⟨_, rfl⟩ := Work.inOp.inj work
      exact named
    · intro other
      have before := inv.closes index other
      simpa [Live, same, opened] using before

-- A call in flight lets go of its entry.
theorem release_inv (inv : TableInv procs s) (nodup : procs.Nodup) (member : proc ∈ procs) (index : Nat) (op : InOp) (node : N)
    (phase : s.phase proc = .busy index (.inOp op node)) (file : File N) (status : file.status = (s.entry index).status)
    (count : file.openCount = (s.entry index).openCount) (same : file.node = (s.entry index).node) (ret : Int) :
    ∃ result next, s.release proc index file ret = .ok (result, next) ∧ TableInv procs next := by
  have slot := inv.slots index
  have one := tally_le (s := s) member .flying index
  obtain ⟨inside, _⟩ := busy_inside inv member index _ phase
  have named := inv.nodes proc member index op node phase
  simp only [phase, tally_busy, Work.sort, if_true] at one
  have mine : (s.phase proc).tally .opening index = 0 ∧ (s.phase proc).tally .flying index = 1 ∧ (s.phase proc).tally .freeing index = 0 := by
    simp [phase, tally_busy, Work.sort]
  cases now : (s.entry index).status with
  | none =>
      simp only [Slot, now] at slot
      omega
  | init =>
      simp only [Slot, now] at slot
      omega
  | opened =>
      simp only [Slot, now] at slot
      have more : ¬ file.openCount - 1 = 0 := by omega
      have positive : 0 < file.openCount := by omega
      refine ⟨some ret, s.put proc index { file with openCount := file.openCount - 1 } .idle, ?_, ?_⟩
      · simp [release, status, now, positive, more]
      · refine inv.update nodup member index _ .idle s.opens s.closes s.handed inside (.inr ⟨_, phase⟩) (.inl rfl) ?_ (.inl same) (by simp)
          (fun _ _ _ => ⟨rfl, rfl⟩) ?_ inv.handed
        · simp only [Slot, status, now, mine, tally_idle, add_zero, sub_zero]
          exact ⟨by omega, slot.2.1, slot.2.2.1, same.symm ▸ slot.2.2.2⟩
        · intro other
          have before := inv.closes index other
          simpa [Live, status, now, same] using before
  | closed =>
      simp only [Slot, now] at slot
      have positive : 0 < file.openCount := by omega
      by_cases last : file.openCount - 1 = 0
      · obtain ⟨next, freed, kept⟩ := close_inv inv nodup member index { file with openCount := file.openCount - 1 } ret inside (.inr ⟨_, phase⟩)
          (.inr ⟨now, by omega⟩) (by simp [status, now]) last same (by omega) (by omega) (by
            rw [if_neg (by omega)] at slot
            omega) (by simp [named])
        refine ⟨none, next, ?_, kept⟩
        simpa [release, status, now, positive, last] using freed
      · refine ⟨some ret, s.put proc index { file with openCount := file.openCount - 1 } .idle, ?_, ?_⟩
        · simp [release, status, now, positive, last]
        · refine inv.update nodup member index _ .idle s.opens s.closes s.handed inside (.inr ⟨_, phase⟩) (.inl rfl) ?_ (.inl same) (by simp)
            (fun _ _ _ => ⟨rfl, rfl⟩) ?_ inv.handed
          · rw [if_neg (by omega)] at slot
            simp only [Slot, status, now, mine, tally_idle, add_zero, sub_zero]
            rw [if_neg (by omega)]
            exact ⟨by omega, slot.2.1, slot.2.2.1, same.symm ▸ slot.2.2.2⟩
          · intro other
            have before := inv.closes index other
            have alive : 0 < (s.entry index).openCount := by omega
            have still : 1 < file.openCount := by omega
            simpa [Live, status, now, same, alive, still] using before

end Entries

section Calls

variable {procs : List P} {s : SharedTable P N} {proc : P}

-- fd_array_alloc gives out a free entry, or none.
omit [DecidableEq P] in
theorem alloc_cases (inv : TableInv procs s) (fd : Int) :
    (∃ ret, fdArrayAlloc s.files fd = .ok (.error ret)) ∨
      ∃ index file, fdArrayAlloc s.files fd = .ok (.ok (index, file)) ∧ index < s.files.fdArray.length ∧ (s.entry index).status = .none ∧
        file.status = .init ∧ file.openCount = 0 := by
  obtain ⟨result, done⟩ := fd_array_alloc_ok s.files fd inv.count fun index free => unused_entries inv index free
  cases result with
  | error ret => exact .inl ⟨ret, done⟩
  | ok pair =>
      obtain ⟨index, file⟩ := pair
      obtain ⟨old, there, free, status, count⟩ := fd_array_alloc_spec s.files fd index file done
      obtain ⟨same, inside⟩ := entry_of_get index old there
      exact .inr ⟨index, file, done, inside, same ▸ free, status, count⟩

omit [DecidableEq P] in
theorem fd2file_cases (inv : TableInv procs s) (fd : Int) :
    (∃ ret, fd2file s.files fd = .ok (.error ret)) ∨
      ∃ index file, fd2file s.files fd = .ok (.ok (index, file)) ∧ s.files.fdArray[index]? = some file ∧ file.status = .opened := by
  obtain ⟨result, done⟩ := fd2file_ok s.files fd inv.count
  cases result with
  | error ret => exact .inl ⟨ret, done⟩
  | ok pair =>
      obtain ⟨index, file⟩ := pair
      obtain ⟨there, opened⟩ := fd2file_spec s.files fd index file done
      exact .inr ⟨index, file, done, there, opened⟩

theorem file_open_inv (inv : TableInv procs s) (nodup : procs.Nodup) (member : proc ∈ procs) (idle : s.phase proc = .idle) (flags : BitVec 32) :
    ∃ ret next, s.fileOpen procs proc flags = .ok (ret, next) ∧ TableInv procs next := by
  unfold fileOpen
  by_cases bad : flags &&& oAccMode = oAccMode
  · exact ⟨_, s, if_pos bad, inv⟩
  · simp only [if_neg bad]
    obtain ⟨ret, full⟩ | ⟨index, file, found, inside, free, status, count⟩ := alloc_cases inv noFd
    · exact ⟨some ret, s, by rw [full]; rfl, inv⟩
    · have slot := inv.slots index
      simp only [Slot, free] at slot
      refine ⟨none, _, by rw [found]; rfl, ?_⟩
      refine inv.update nodup member index file (.busy index (.opening flags)) s.opens s.closes _ inside (.inl idle) (.inr ⟨_, rfl⟩) ?_
        (.inr slot.2.2.1) (by simp) (fun _ _ _ => ⟨rfl, rfl⟩) ?_ ?_
      · simp [Slot, status, count, idle, tally_idle, tally_busy, Work.sort, slot]
      · intro node
        have before := inv.closes index node
        simpa [Live, free, status] using before
      · intro inFlight logged
        rcases List.mem_cons.mp logged with rfl | earlier
        · exact slot.2.2.1
        · exact inv.handed inFlight earlier

-- file_open ends, and nobody else has had the entry since fd_array_alloc.
theorem opened_inv (inv : TableInv procs s) (nodup : procs.Nodup) (member : proc ∈ procs) (index : Nat) (work : Work N)
    (phase : s.phase proc = .busy index work) (opens : work.sort = .opening) (flags : BitVec 32) (node : N) (pos : Int) :
    ∃ ret next, s.opened proc index flags node pos = .ok (ret, next) ∧ TableInv procs next := by
  obtain ⟨status, count, opening, flying, freeing⟩ := opening_slot inv member index work phase opens
  obtain ⟨inside, _⟩ := busy_inside inv member index work phase
  refine ⟨_, _, by simp [opened, fdArrayOpen, status]; exact ⟨rfl, rfl⟩, ?_⟩
  refine inv.update nodup member index _ .idle (bump s.opens index node) s.closes s.handed inside (.inr ⟨work, phase⟩) (.inl rfl) ?_
    (.inr flying) (by simp) ?_ ?_ inv.handed
  · simp [Slot, tally_idle, tally_busy, phase, opens, count, opening, flying, freeing]
  · intro there other apart
    simp [bump, apart]
  · intro other
    have before := inv.closes index other
    have dead : ¬ Live (s.entry index) := by simp [Live, status]
    simp only [dead, false_and, if_false, add_zero] at before
    by_cases equal : other = node
    · subst equal
      simp [bump, Live, before]
    · simp [bump, Live, equal, Ne.symm equal, before]

theorem vfs_opened_inv (inv : TableInv procs s) (nodup : procs.Nodup) (member : proc ∈ procs) (result : Except Int N) :
    ∃ ret next, s.call procs (.vfsOpened proc result) = .ok (ret, next) ∧ TableInv procs next := by
  cases phase : s.phase proc with
  | idle => exact ⟨none, s, by simp [call, phase], inv⟩
  | busy index work =>
      cases work with
      | opening flags =>
          cases result with
          | error ret =>
              obtain ⟨next, done, kept⟩ := undo_inv inv nodup member index (.opening flags) phase rfl ret
              exact ⟨some ret, next, by simp only [call, phase, done], kept⟩
          | ok node =>
              by_cases append : has flags oAppend
              · obtain ⟨status, count, opening, flying, freeing⟩ := opening_slot inv member index _ phase rfl
                obtain ⟨inside, _⟩ := busy_inside inv member index _ phase
                refine ⟨none, _, by simp only [call, phase, append, if_true]; rfl, ?_⟩
                refine inv.update nodup member index _ (.busy index (.appending flags node)) s.opens s.closes s.handed inside (.inr ⟨_, phase⟩)
                  (.inr ⟨_, rfl⟩) ?_ (.inl rfl) (by simp) (fun _ _ _ => ⟨rfl, rfl⟩) ?_ inv.handed
                · simp [Slot, status, count, phase, tally_busy, Work.sort, opening, flying, freeing]
                · exact inv.closes index
              · obtain ⟨ret, next, done, kept⟩ := opened_inv inv nodup member index _ phase rfl flags node 0
                exact ⟨ret, next, by simp only [call, phase, append, done]; rfl, kept⟩
      | appending flags node => exact ⟨none, s, by simp [call, phase], inv⟩
      | undoing ret => exact ⟨none, s, by simp [call, phase], inv⟩
      | inOp op node => exact ⟨none, s, by simp [call, phase], inv⟩
      | freeing ret => exact ⟨none, s, by simp [call, phase], inv⟩

theorem fstated_inv (inv : TableInv procs s) (nodup : procs.Nodup) (member : proc ∈ procs) (result : Except Int Int) :
    ∃ ret next, s.call procs (.fstated proc result) = .ok (ret, next) ∧ TableInv procs next := by
  cases phase : s.phase proc with
  | idle => exact ⟨none, s, by simp [call, phase], inv⟩
  | busy index work =>
      cases work with
      | appending flags node =>
          cases result with
          | error ret =>
              obtain ⟨status, count, opening, flying, freeing⟩ := opening_slot inv member index _ phase rfl
              obtain ⟨inside, _⟩ := busy_inside inv member index _ phase
              refine ⟨none, _, by simp only [call, phase]; rfl, ?_⟩
              refine inv.update nodup member index _ (.busy index (.undoing ret)) s.opens s.closes s.handed inside (.inr ⟨_, phase⟩)
                (.inr ⟨_, rfl⟩) ?_ (.inl rfl) (by simp) (fun _ _ _ => ⟨rfl, rfl⟩) ?_ inv.handed
              · simp [Slot, status, count, phase, tally_busy, Work.sort, opening, flying, freeing]
              · exact inv.closes index
          | ok size =>
              obtain ⟨ret, next, done, kept⟩ := opened_inv inv nodup member index _ phase rfl flags node size
              exact ⟨ret, next, by simp only [call, phase, done], kept⟩
      | opening flags => exact ⟨none, s, by simp [call, phase], inv⟩
      | undoing ret => exact ⟨none, s, by simp [call, phase], inv⟩
      | inOp op node => exact ⟨none, s, by simp [call, phase], inv⟩
      | freeing ret => exact ⟨none, s, by simp [call, phase], inv⟩

theorem file_close_inv (inv : TableInv procs s) (nodup : procs.Nodup) (member : proc ∈ procs) (idle : s.phase proc = .idle) (fd : Int) :
    ∃ ret next, s.fileClose proc fd = .ok (ret, next) ∧ TableInv procs next := by
  unfold fileClose
  obtain ⟨ret, none⟩ | ⟨index, file, found, there, opened⟩ := fd2file_cases inv fd
  · exact ⟨some ret, s, by rw [none]; rfl, inv⟩
  · obtain ⟨same, inside⟩ := entry_of_get index file there
    have slot := inv.slots index
    have flying := tally_nonneg procs s .flying index
    simp only [Slot, same, opened] at slot
    have positive : 0 < file.openCount := by omega
    by_cases last : file.openCount - 1 = 0
    · obtain ⟨next, freed, kept⟩ := close_inv inv nodup member index { file with status := .closed, openCount := file.openCount - 1 } 0 inside
        (.inl idle) (.inl (same ▸ opened)) rfl last (by rw [same]) (by simp only [idle, tally_idle]; omega)
        (by simp only [idle, tally_idle]; omega) (by simp only [idle, tally_idle]; omega) (same.symm ▸ slot.2.2.2)
      refine ⟨none, next, ?_, kept⟩
      rw [found]
      simpa [opened, positive, last] using freed
    · refine ⟨some 0, s.put proc index { file with status := .closed, openCount := file.openCount - 1 } .idle, ?_, ?_⟩
      · rw [found]
        simp [opened, positive, last]
      · refine inv.update nodup member index _ .idle s.opens s.closes s.handed inside (.inl idle) (.inl rfl) ?_ (.inl (by rw [same])) (by simp)
          (fun _ _ _ => ⟨rfl, rfl⟩) ?_ inv.handed
        · simp only [Slot, idle, tally_idle, add_zero, sub_zero]
          rw [if_neg (by omega)]
          exact ⟨by omega, slot.2.1, slot.2.2.1, slot.2.2.2⟩
        · intro other
          have before := inv.closes index other
          have still : 1 < file.openCount := by omega
          simpa [Live, same, opened, still] using before

theorem file_dup_inv (inv : TableInv procs s) (nodup : procs.Nodup) (member : proc ∈ procs) (idle : s.phase proc = .idle) (fd1 fd2 : Int) :
    ∃ ret next, s.fileDup procs proc fd1 fd2 = .ok (ret, next) ∧ TableInv procs next := by
  unfold fileDup
  obtain ⟨ret, none⟩ | ⟨from', origin, found, there, opened⟩ := fd2file_cases inv fd1
  · exact ⟨some ret, s, by rw [none]; rfl, inv⟩
  · obtain ⟨same, _⟩ := entry_of_get from' origin there
    have source := inv.slots from'
    simp only [Slot, same, opened] at source
    obtain ⟨node, named⟩ := Option.ne_none_iff_exists'.mp source.2.2.2
    rw [found]
    obtain ⟨ret, full⟩ | ⟨index, file, taken, inside, free, status, count⟩ := alloc_cases inv fd2
    · exact ⟨some ret, s, by simp only [ok_bind, full]; rfl, inv⟩
    · have slot := inv.slots index
      simp only [Slot, free] at slot
      refine ⟨some (index : Int), _, by simp [taken, status, opened, named, fdArrayOpen]; rfl, ?_⟩
      refine inv.update nodup member index _ .idle (bump s.opens index node) s.closes _ inside (.inl idle) (.inl rfl) ?_ (.inr slot.2.2.1)
        (by simp) ?_ ?_ ?_
      · simp [Slot, idle, tally_idle, count, slot]
      · intro there other apart
        simp [bump, apart]
      · intro other
        have before := inv.closes index other
        have dead : ¬ Live (s.entry index) := by simp [Live, free]
        simp only [dead, false_and, if_false, add_zero] at before
        by_cases equal : other = node
        · subst equal
          simp [bump, Live, before]
        · simp [bump, Live, equal, Ne.symm equal, before]
      · intro inFlight logged
        rcases List.mem_cons.mp logged with rfl | earlier
        · exact slot.2.2.1
        · exact inv.handed inFlight earlier

theorem file_start_inv (inv : TableInv procs s) (nodup : procs.Nodup) (member : proc ∈ procs) (idle : s.phase proc = .idle) (fd : Int)
    (op : FileOp) : ∃ ret next, s.fileStart proc fd op = .ok (ret, next) ∧ TableInv procs next := by
  unfold fileStart
  obtain ⟨ret, none⟩ | ⟨index, file, found, there, opened⟩ := fd2file_cases inv fd
  · exact ⟨some ret, s, by rw [none]; rfl, inv⟩
  · rw [found]
    by_cases refused : FileOp.refuses op file
    · exact ⟨some eInval, s, by simp [refused], inv⟩
    · by_cases stopped : FileOp.stops op
      · obtain ⟨mid, node, acquired, kept, phase⟩ := acquire_inv inv nodup member idle index file there opened .plain
        obtain ⟨ret, next, released, kept⟩ := release_inv kept nodup member index .plain node phase (mid.entry index) rfl rfl rfl eInval
        exact ⟨ret, next, by simp [refused, stopped, acquired, released], kept⟩
      · obtain ⟨next, node, acquired, kept, _⟩ := acquire_inv inv nodup member idle index file there opened (FileOp.begins op file)
        exact ⟨none, next, by simp [refused, stopped, acquired], kept⟩

theorem finish_inv (inv : TableInv procs s) (nodup : procs.Nodup) (member : proc ∈ procs) (ret moved : Int) :
    ∃ result next, s.call procs (.finish proc ret moved) = .ok (result, next) ∧ TableInv procs next := by
  cases phase : s.phase proc with
  | idle => exact ⟨none, s, by simp [call, phase], inv⟩
  | busy index work =>
      cases work with
      | inOp op node =>
          simp only [call, phase]
          cases op with
          | moving =>
              simp only [fileFinish]
              by_cases opened : (s.entry index).status = .opened
              · rw [if_pos opened]
                exact release_inv inv nodup member index _ node phase { s.entry index with pos := (s.entry index).pos + moved } rfl rfl rfl ret
              · rw [if_neg opened]
                exact release_inv inv nodup member index _ node phase _ rfl rfl rfl ret
          | seekEnd pos =>
              by_cases done : ret = 0
              · obtain ⟨inside, _⟩ := busy_inside inv member index _ phase
                have named := inv.nodes proc member index _ node phase
                refine ⟨none, _, by simp only [fileFinish, done, if_true]; rfl, ?_⟩
                refine inv.update nodup member index _ (.busy index (.inOp (.tryseek (pos + moved)) node)) s.opens s.closes s.handed inside
                  (.inr ⟨_, phase⟩) (.inr ⟨_, rfl⟩) ?_ (.inl rfl) ?_ (fun _ _ _ => ⟨rfl, rfl⟩) (inv.closes index) inv.handed
                · rw [phase, tally_busy, tally_busy, tally_busy, tally_busy, tally_busy, tally_busy]
                  simp only [Work.sort, reduceCtorEq, if_true, if_false, add_zero, sub_zero, add_sub_cancel_right]
                  exact inv.slots index
                · intro op' node' equal
                  obtain ⟨_, work⟩ := TablePhase.busy.inj equal
                  obtain ⟨_, rfl⟩ := Work.inOp.inj work
                  exact named
              · simp only [fileFinish, done, if_false]
                exact release_inv inv nodup member index _ node phase _ rfl rfl rfl ret
          | tryseek pos =>
              by_cases done : ret = 0
              · simp only [fileFinish, done, if_true]
                exact release_inv inv nodup member index _ node phase { s.entry index with pos := pos } rfl rfl rfl 0
              · simp only [fileFinish, done, if_false]
                exact release_inv inv nodup member index _ node phase _ rfl rfl rfl ret
          | plain => exact release_inv inv nodup member index _ node phase _ rfl rfl rfl ret
      | opening flags => exact ⟨none, s, by simp [call, phase], inv⟩
      | appending flags node => exact ⟨none, s, by simp [call, phase], inv⟩
      | undoing ret => exact ⟨none, s, by simp [call, phase], inv⟩
      | freeing ret => exact ⟨none, s, by simp [call, phase], inv⟩

-- fd_array_free is over when vfs_close returns, and the entry is free again.
theorem vfs_closed_inv (inv : TableInv procs s) (nodup : procs.Nodup) (member : proc ∈ procs) :
    ∃ ret next, s.call procs (.vfsClosed proc) = .ok (ret, next) ∧ TableInv procs next := by
  cases phase : s.phase proc with
  | idle => exact ⟨none, s, by simp [call, phase], inv⟩
  | busy index work =>
      cases work with
      | undoing ret =>
          obtain ⟨next, done, kept⟩ := undo_inv inv nodup member index (.undoing ret) phase rfl ret
          exact ⟨some ret, next, by simp only [call, phase, done], kept⟩
      | freeing ret =>
          have slot := inv.slots index
          have one := tally_le (s := s) member .freeing index
          have flying := tally_nonneg procs s .flying index
          obtain ⟨inside, _⟩ := busy_inside inv member index _ phase
          simp only [phase, tally_busy, Work.sort, if_true] at one
          refine ⟨some ret, _, by simp only [call, phase]; rfl, ?_⟩
          cases status : (s.entry index).status with
          | none =>
              simp only [Slot, status] at slot
              omega
          | init =>
              simp only [Slot, status] at slot
              omega
          | opened =>
              simp only [Slot, status] at slot
              omega
          | closed =>
              simp only [Slot, status] at slot
              have exceeds : s.tally procs .flying index = 0 := by
                by_contra more
                rw [if_neg more] at slot
                omega
              rw [if_pos exceeds] at slot
              refine inv.update nodup member index _ .idle s.opens s.closes s.handed inside (.inr ⟨_, phase⟩) (.inl rfl) ?_ (.inl rfl) (by simp)
                (fun _ _ _ => ⟨rfl, rfl⟩) ?_ inv.handed
              · simp [Slot, phase, tally_idle, tally_busy, Work.sort, slot, exceeds]
              · intro other
                have before := inv.closes index other
                have empty : (s.entry index).openCount = 0 := by omega
                simpa [Live, status, empty] using before
      | opening flags => exact ⟨none, s, by simp [call, phase], inv⟩
      | appending flags node => exact ⟨none, s, by simp [call, phase], inv⟩
      | inOp op node => exact ⟨none, s, by simp [call, phase], inv⟩

theorem call_inv (inv : TableInv procs s) (nodup : procs.Nodup) (event : TableCall P N) (enabled : s.Enabled procs event) :
    ∃ ret next, s.call procs event = .ok (ret, next) ∧ TableInv procs next := by
  cases event with
  | openFile proc flags => exact file_open_inv inv nodup enabled.1 (idle_phase enabled.2) flags
  | vfsOpened proc result => exact vfs_opened_inv inv nodup enabled result
  | fstated proc result => exact fstated_inv inv nodup enabled result
  | close proc fd => exact file_close_inv inv nodup enabled.1 (idle_phase enabled.2) fd
  | dup proc fd1 fd2 => exact file_dup_inv inv nodup enabled.1 (idle_phase enabled.2) fd1 fd2
  | start proc fd op => exact file_start_inv inv nodup enabled.1 (idle_phase enabled.2) fd op
  | finish proc ret moved => exact finish_inv inv nodup enabled ret moved
  | vfsClosed proc => exact vfs_closed_inv inv nodup enabled

end Calls

-- A table as it is between calls when nobody shares it: files_create and dup_files
-- make such tables.
structure QuietTable (files : FilesStruct N) : Prop where
  length : files.fdArray.length = filesStructNentry
  count : 0 < files.filesCount
  settled : ∀ file ∈ files.fdArray, Settled file

structure TableSound (procs : List P) (s : SharedTable P N) : Prop where
  counts : ∀ index, (s.entry index).openCount = (if (s.entry index).status = .opened then 1 else 0) + s.tally procs .flying index
  nodes : ∀ proc ∈ procs, ∀ index op node, s.phase proc = .busy index (.inOp op node) → (s.entry index).node = some node
  closes : ∀ index node, s.opens index node = s.closes index node + if Live (s.entry index) ∧ (s.entry index).node = some node then 1 else 0
  handed : ∀ inFlight ∈ s.handed, inFlight = 0
  returns : ∀ event, s.Enabled procs event → ∃ result, s.call procs event = .ok result

theorem TableInv.sound {procs : List P} {s : SharedTable P N} (nodup : procs.Nodup) (inv : TableInv procs s) : TableSound procs s where
  counts := by
    intro index
    have slot := inv.slots index
    cases status : (s.entry index).status <;> simp only [Slot, status] at slot <;> simp only [reduceCtorEq, if_true, if_false] <;> omega
  nodes := inv.nodes
  closes := inv.closes
  handed := inv.handed
  returns := by
    intro event enabled
    obtain ⟨ret, next, done, _⟩ := call_inv inv nodup event enabled
    exact ⟨(ret, next), done⟩

omit [DecidableEq N] in
theorem quiet_entry (files : FilesStruct N) (quiet : QuietTable files) (index : Nat) : Settled (files.fdArray.getD index (fileNone N)) := by
  rw [List.getD_eq_getElem?_getD]
  cases there : files.fdArray[index]? with
  | none => exact .inl ⟨rfl, rfl⟩
  | some file => exact quiet.settled file (List.mem_of_getElem? there)

omit [DecidableEq P] in
theorem quiet_inv (procs : List P) (files : FilesStruct N) (quiet : QuietTable files) : TableInv procs (ofFiles files : SharedTable P N) where
  count := quiet.count
  slots := by
    intro index
    have none : ∀ sort, (ofFiles files : SharedTable P N).tally procs sort index = 0 := by
      intro sort
      exact List.sum_eq_zero (by simp [ofFiles, tally_idle])
    rw [none, none, none]
    obtain ⟨free, count⟩ | ⟨opened, count, node, named⟩ := quiet_entry files quiet index
    · simp [Slot, entry, ofFiles, -List.getD_eq_getElem?_getD, free, count]
    · simp [Slot, entry, ofFiles, -List.getD_eq_getElem?_getD, opened, count, named]
  nodes := by
    intro proc _ index op node busy
    cases busy
  closes := by
    intro index node
    obtain ⟨free, count⟩ | ⟨opened, _⟩ := quiet_entry files quiet index
    · simp [entry, ofFiles, -List.getD_eq_getElem?_getD, Live, free]
    · simp [entry, ofFiles, -List.getD_eq_getElem?_getD, Live, opened]
  handed := by simp [ofFiles]

theorem step_table_inv (procs : List P) (nodup : procs.Nodup) (s : SharedTable P N) (event : TableCall P N) (next : SharedTable P N)
    (inv : TableInv procs s) (enabled : s.Enabled procs event) (taken : s.step procs event = some next) : TableInv procs next := by
  obtain ⟨ret, after, done, kept⟩ := call_inv inv nodup event enabled
  simp only [step, done, Option.some.injEq] at taken
  exact taken ▸ kept

theorem shared_table_sound (procs : List P) (nodup : procs.Nodup) (files : FilesStruct N) (quiet : QuietTable files)
    (events : List (TableCall P N)) (enabled : Throughout (step procs) (Enabled procs) (ofFiles files) events) :
    Always (step procs) (TableSound procs) (ofFiles files) events :=
  always_invariant (step procs) (Enabled procs) (TableInv procs) (TableSound procs) (step_table_inv procs nodup) (fun _ inv => inv.sound nodup)
    events (ofFiles files) (quiet_inv procs files quiet) enabled

-- One process reads from entry 0 while another closes it and opens a file: the new
-- file gets entry 1, and the reader closes the inode of entry 0.
def closedUnderRead : List (TableCall Bool Nat) :=
  [.openFile false 0, .vfsOpened false (.ok 7), .start false 0 .read, .close true 0, .openFile true 0, .vfsOpened true (.ok 8),
    .finish false 0 100, .vfsClosed false, .dup true 1 0]

theorem shared_table_sound_read :
    Always (step [false, true]) (TableSound [false, true]) (ofFiles { filesCreate Nat with filesCount := 2 }) closedUnderRead ∧
      (run (step [false, true]) (ofFiles { filesCreate Nat with filesCount := 2 }) closedUnderRead).map
        (fun s => ((s.entry 0).node, (s.entry 1).node, s.closes 0 7)) = some (some 8, some 8, 1) := by
  refine ⟨shared_table_sound [false, true] (by decide) _ ⟨by decide, by decide, ?_⟩ closedUnderRead (by decide +kernel), by decide +kernel⟩
  intro file member
  exact .inl (created_idle Nat file member)

end SharedTable

end Ucore.Vfs
