import Mathlib.Data.List.Perm.Subperm
import Ucore.Sched.RunMembers

set_option autoImplicit false

namespace Ucore.Sched

open Ucore.Lib Ucore.Proc

variable {P : Type} [DecidableEq P]

namespace RunState

-- A process is in the queue once when it is runnable, not current and not
-- idleproc, and not at all otherwise.
structure RunQueueOk (idle : P) (s : RunState P) : Prop where
  linked : ∀ proc, s.rq.runList.count proc =
    if proc ∈ s.inUse ∧ (s.procs proc).state = .runnable ∧ proc ≠ s.current ∧ proc ≠ idle then 1 else 0
  procNum : s.rq.procNum.toNat = s.rq.runList.length
  slices : ∀ proc ∈ s.rq.runList, 0 < (s.procs proc).timeSlice ∧ (s.procs proc).timeSlice ≤ s.rq.maxTimeSlice

theorem settled_ok (idle : P) (s : RunState P) (inv : Settled idle s) : RunQueueOk idle s where
  linked := by
    intro proc
    have member := inv.members proc
    simp only [Outside, not_or] at member
    by_cases linked : proc ∈ s.rq.runList
    · rw [if_pos (member.mp linked)]
      exact List.count_eq_one_of_mem inv.queued linked
    · rw [if_neg (fun ready => linked (member.mpr ready))]
      exact List.count_eq_zero_of_not_mem linked
  procNum := by
    have part : s.rq.runList ⊆ s.inUse := fun proc linked => ((inv.members proc).mp linked).1
    have fewer := (inv.queued.subperm part).length_le
    have counted := inv.counted
    have few := inv.few
    have limit : maxProcess < 2 ^ 32 := by decide
    rw [inv.procNum, BitVec.toNat_ofNat]
    apply Nat.mod_eq_of_lt
    omega
  slices := fun proc linked => ⟨(inv.sliced proc linked).1, (inv.sliced proc linked).2.1⟩

section Calls

variable {idle : P} {s : RunState P}

-- A change of the current process, which is not in the queue.
theorem Settled.touch_current (inv : Settled idle s) (entry : ProcStruct P) (registered : P → Bool) (idleState : s.current = idle → entry.state = .runnable)
    (slice : 0 ≤ entry.timeSlice) (asleep : entry.waitState ≠ 0 → entry.state = .sleeping)
    (waits : ∀ other, registered other = true → s.registered other = true ∨ other = s.current)
    (alive : registered s.current = true → entry.state ≠ .zombie) :
    Settled idle { s with procs := s.procs.set s.current entry, registered := registered } := by
  have outside : Outside idle s s.current := .inl rfl
  apply RunInv.touch inv s.current entry registered (.inl outside) idleState slice _ asleep
  · intro other waiting
    by_cases here : other = s.current
    · exact ⟨here ▸ inv.currentUsed, fun _ => alive (here ▸ waiting), fun apart => absurd here apart⟩
    · have before := inv.alive other ((waits other waiting).resolve_right here)
      exact ⟨before.1, fun same => absurd same here, fun _ => before.2⟩
  · exact fun linked => absurd linked (inv.outside_unlinked s.current outside)

theorem Settled.fork_spec (inv : Settled idle s) (proc : Option P) (ready : Bool) (fresh : ∀ given ∈ proc, given ∉ s.inUse) :
    ∃ next, s.doFork idle proc ready = .ok next ∧ Settled idle next := by
  by_cases room : maxProcess ≤ s.nrProcess
  · exact ⟨s, by simp [doFork, room], inv⟩
  · cases proc with
    | none => exact ⟨s, by simp [doFork, room], inv⟩
    | some given =>
        have unused := fresh given rfl
        have apart : ∀ other ∈ s.inUse, other ≠ given := fun other used same => unused (same ▸ used)
        have notCurrent := apart s.current inv.currentUsed
        let procs := (s.procs.set given { allocProc with parent := some s.current }).set s.current
          { (s.procs.set given { allocProc with parent := some s.current }) s.current with waitState := 0 }
        have same : ∀ other ∈ s.inUse, (procs other).state = (s.procs other).state ∧ (procs other).timeSlice = (s.procs other).timeSlice ∧
            (procs other).onRq = (s.procs other).onRq ∧ ((procs other).waitState ≠ 0 → (s.procs other).waitState ≠ 0) := by
          intro other used
          by_cases isCurrent : other = s.current
          · simp [procs, isCurrent, notCurrent]
          · simp [procs, isCurrent, apart other used]
        have created : (procs given).state = .uninit := by
          simp [procs, Procs.set_other _ _ _ _ notCurrent.symm, allocProc]
        have kept : Settled idle { s with procs := procs } := {
          inv with
          idleRuns := (same idle inv.idleUsed).1.trans inv.idleRuns
          members := by
            intro other
            rw [inv.members other]
            constructor
            · exact fun ⟨used, runs, inside⟩ => ⟨used, (same other used).1.trans runs, inside⟩
            · exact fun ⟨used, runs, inside⟩ => ⟨used, (same other used).1.symm.trans runs, inside⟩
          sliced := by
            intro other linked
            obtain ⟨_, timeSlice, onRq, _⟩ := same other ((inv.members other).mp linked).1
            simp only [timeSlice, onRq]
            exact inv.sliced other linked
          slices := by
            intro other used
            simp only [(same other used).2.1]
            exact inv.slices other used
          asleep := by
            intro other used waits
            obtain ⟨state, _, _, before⟩ := same other used
            exact state.trans (inv.asleep other used (before waits))
          alive := by
            intro other waits
            obtain ⟨used, notZombie⟩ := inv.alive other waits
            exact ⟨used, by rw [(same other used).1]; exact notZombie⟩ }
        cases ready with
        | false => exact ⟨{ s with procs := procs }, by simp only [doFork, if_neg room, Bool.false_eq_true, if_false, procs], kept⟩
        | true =>
            have grown : Settled idle { s with procs := procs, inUse := given :: s.inUse, nrProcess := s.nrProcess + 1 } := {
              kept with
              idleUsed := List.mem_cons_of_mem _ inv.idleUsed
              distinct := List.nodup_cons.mpr ⟨unused, inv.distinct⟩
              counted := by simp [inv.counted]
              few := by
                show s.nrProcess + 1 ≤ maxProcess
                omega
              currentUsed := List.mem_cons_of_mem _ inv.currentUsed
              members := by
                intro other
                by_cases new : other = given
                · subst new
                  have unlinked : other ∉ s.rq.runList := fun linked => unused ((inv.members other).mp linked).1
                  simp [unlinked, created]
                · simpa [new, Outside] using kept.members other
              slices := by
                intro other used
                by_cases new : other = given
                · subst new
                  simp [procs, Procs.set_other _ _ _ _ notCurrent.symm, allocProc]
                · exact kept.slices other ((List.mem_cons.mp used).resolve_left new)
              asleep := by
                intro other used waits
                by_cases new : other = given
                · subst new
                  simp [procs, Procs.set_other _ _ _ _ notCurrent.symm, allocProc] at waits
                · exact kept.asleep other ((List.mem_cons.mp used).resolve_left new) waits
              alive := fun other waits => ⟨List.mem_cons_of_mem _ (kept.alive other waits).1, (kept.alive other waits).2⟩ }
            obtain ⟨next, returns, woken⟩ := grown.wakeup_spec given List.mem_cons_self (by simp [created])
            exact ⟨next, by simp only [doFork, if_neg room, if_true]; exact returns, woken.inv⟩

theorem Settled.exit_spec (inv : Settled idle s) (errorCode : Int) (visits : List P) (active : s.Active) (notIdle : s.current ≠ idle)
    (alone : s.registered s.current = false) (used : ∀ proc ∈ visits, proc ∈ s.inUse) :
    ∃ next, s.call idle (.exit errorCode visits) = .ok next ∧ Settled idle next := by
  have gone := inv.touch_current { s.procs s.current with state := .zombie, exitCode := errorCode } s.registered
    (fun same => absurd same notIdle) (inv.slices s.current inv.currentUsed) (fun waits => absurd (inv.calm active) waits)
    (fun other waits => .inl waits) (fun waits => absurd waits (by simp [alone]))
  exact Settled.visit_all_spec visits _ gone used

theorem Settled.kill_spec (inv : Settled idle s) (proc : P) (used : proc ∈ s.inUse) :
    ∃ next, s.doKill idle proc = .ok next ∧ Settled idle next := by
  by_cases killed : (s.procs proc).exiting = true
  · exact ⟨s, by simp [doKill, killed], inv⟩
  · have marked : Settled idle { s with procs := s.procs.set proc { s.procs proc with exiting := true } } := by
      apply RunInv.touch inv proc { s.procs proc with exiting := true } s.registered (.inr rfl)
      · exact fun same => same ▸ inv.idleRuns
      · exact inv.slices proc used
      · exact fun linked => inv.sliced proc linked
      · exact inv.asleep proc used
      · intro other waits
        obtain ⟨otherUsed, notZombie⟩ := inv.alive other waits
        exact ⟨otherUsed, fun same => same ▸ notZombie, fun _ => notZombie⟩
    by_cases wakes : interruptible (s.procs proc).waitState = true
    · have waits : (s.procs proc).waitState ≠ 0 := by
        intro zero
        rw [zero] at wakes
        exact absurd wakes (by decide)
      have sleeps := inv.asleep proc used waits
      obtain ⟨next, returns, woken⟩ := marked.wakeup_spec proc used (by simp [sleeps])
      exact ⟨next, by simpa [doKill, killed, wakes] using returns, woken.inv⟩
    · exact ⟨_, by simp [doKill, killed, wakes], marked⟩

theorem Settled.reap_spec (inv : Settled idle s) (proc : P) (active : s.Active) (used : proc ∈ s.inUse) (gone : (s.procs proc).state = .zombie) :
    Settled idle { s with inUse := s.inUse.erase proc, nrProcess := s.nrProcess - 1 } := by
  have keeps : ∀ other ∈ s.inUse, (s.procs other).state ≠ .zombie → other ∈ s.inUse.erase proc := by
    intro other otherUsed notZombie
    apply inv.distinct.mem_erase_iff.mpr
    exact ⟨fun same => notZombie (same ▸ gone), otherUsed⟩
  have positive := List.length_pos_of_mem used
  exact { inv with
    idleUsed := keeps idle inv.idleUsed (by rw [inv.idleRuns]; decide)
    distinct := inv.distinct.erase proc
    counted := by
      show s.nrProcess - 1 = ((s.inUse.erase proc).length : Int)
      rw [List.length_erase_of_mem used, inv.counted]
      omega
    few := by
      show s.nrProcess - 1 ≤ maxProcess
      have few := inv.few
      omega
    currentUsed := keeps s.current inv.currentUsed (by rw [active]; decide)
    members := by
      intro other
      rw [inv.members other]
      constructor
      · exact fun ⟨otherUsed, runs, inside⟩ => ⟨keeps other otherUsed (by rw [runs]; decide), runs, inside⟩
      · exact fun ⟨otherUsed, runs, inside⟩ => ⟨List.mem_of_mem_erase otherUsed, runs, inside⟩
    slices := fun other otherUsed => inv.slices other (List.mem_of_mem_erase otherUsed)
    asleep := fun other otherUsed => inv.asleep other (List.mem_of_mem_erase otherUsed)
    alive := fun other waits => ⟨keeps other (inv.alive other waits).1 (inv.alive other waits).2, (inv.alive other waits).2⟩ }

theorem proc_tick_eq (procs : Procs P) (proc : P) (slice : 0 ≤ (procs proc).timeSlice) :
    ∃ timeSlice needResched, 0 ≤ timeSlice ∧
      RoundRobin.procTick procs proc = procs.set proc { procs proc with timeSlice := timeSlice, needResched := needResched } := by
  refine ⟨_, _, ?_, rfl⟩
  split <;> omega

theorem Settled.tick_spec (inv : Settled idle s) (expired : List P) (waiting : ∀ proc ∈ expired, s.registered proc = true) :
    ∃ next, s.tick idle expired = .ok next ∧ Settled idle next := by
  obtain ⟨mid, returns, kept, _, _, registered⟩ := Settled.wake_all_spec expired s inv fun proc member => inv.alive proc (waiting proc member)
  have fewer : ∀ other, (if other ∈ expired then false else mid.registered other) = true → mid.registered other = true ∨ other = mid.current := by
    intro other waits
    by_cases woken : other ∈ expired
    · simp [woken] at waits
    · exact .inl (by simpa [woken] using waits)
  have current := kept.currentUsed
  have alive : (if mid.current ∈ expired then false else mid.registered mid.current) = true → (mid.procs mid.current).state ≠ .zombie := by
    intro waits
    have still := (fewer mid.current waits).elim id fun _ => by
      by_cases woken : mid.current ∈ expired
      · simp [woken] at waits
      · simpa [woken] using waits
    exact (kept.alive mid.current still).2
  by_cases isIdle : mid.current = idle
  · refine ⟨{ mid with
      procs := mid.procs.set mid.current { mid.procs mid.current with needResched := true }
      registered := fun other => if other ∈ expired then false else mid.registered other }, ?_, ?_⟩
    · simp only [tick, returns, ok_bind, ne_eq, isIdle, not_true_eq_false, if_false]
      rfl
    · exact kept.touch_current _ _ (fun same => same ▸ kept.idleRuns) (kept.slices _ current) (kept.asleep _ current) fewer alive
  · refine ⟨{ mid with
      procs := RoundRobin.procTick mid.procs mid.current
      registered := fun other => if other ∈ expired then false else mid.registered other }, ?_, ?_⟩
    · simp only [tick, returns, ok_bind, ne_eq, isIdle, not_false_eq_true, if_true]
      rfl
    · obtain ⟨timeSlice, needResched, slice, ticked⟩ := proc_tick_eq mid.procs mid.current (kept.slices mid.current current)
      rw [ticked]
      exact kept.touch_current { mid.procs mid.current with timeSlice := timeSlice, needResched := needResched } _
        (fun same => absurd same isIdle) slice (kept.asleep _ current) fewer alive

-- Every step that is enabled returns: no assertion fails.
theorem Settled.call_spec (inv : Settled idle s) (event : RunCall P) (enabled : s.Enabled idle event) :
    ∃ next, s.call idle event = .ok next ∧ Settled idle next := by
  have current := inv.currentUsed
  cases event with
  | fork proc ready => exact inv.fork_spec proc ready enabled.2
  | exit errorCode visits => exact inv.exit_spec errorCode visits enabled.1 enabled.2.1 enabled.2.2.1 enabled.2.2.2
  | block waitState registers =>
      obtain ⟨active, notIdle, alone, _⟩ := enabled
      refine ⟨_, rfl, ?_⟩
      apply inv.touch_current { s.procs s.current with state := .sleeping, waitState := waitState }
        (Function.update s.registered s.current registers) (fun same => absurd same notIdle) (inv.slices _ current) (fun _ => rfl)
      · intro other waits
        by_cases here : other = s.current
        · exact .inr here
        · rw [Function.update_of_ne here] at waits
          exact .inl waits
      · exact fun _ => by simp
  | resumed =>
      refine ⟨_, rfl, ?_⟩
      have kept := inv.touch_current (s.procs s.current) (Function.update s.registered s.current false) (fun _ => enabled)
        (inv.slices _ current) (inv.asleep _ current) (by
          intro other waits
          by_cases here : other = s.current
          · exact .inr here
          · rw [Function.update_of_ne here] at waits
            exact .inl waits)
        (fun waits => by simp at waits)
      have same : s.procs.set s.current (s.procs s.current) = s.procs := by simp [Procs.set]
      rw [same] at kept
      exact kept
  | wake proc =>
      obtain ⟨used, notZombie⟩ := inv.alive proc enabled.2
      obtain ⟨mid, returns, woken⟩ := inv.wakeup_spec proc used notZombie
      refine ⟨{ mid with registered := Function.update mid.registered proc false }, by simp [call, returns], ?_⟩
      have kept := RunInv.touch woken.inv proc (mid.procs proc) (Function.update mid.registered proc false) (.inr rfl)
        (fun _ => woken.runs) (woken.inv.slices proc (woken.inUse ▸ used)) (fun linked => woken.inv.sliced proc linked)
        (woken.inv.asleep proc (woken.inUse ▸ used)) (by
          intro other waits
          by_cases here : other = proc
          · simp [here] at waits
          · rw [Function.update_of_ne here] at waits
            obtain ⟨otherUsed, otherAlive⟩ := woken.inv.alive other waits
            exact ⟨otherUsed, fun same => absurd same here, fun _ => otherAlive⟩)
      have same : mid.procs.set proc (mid.procs proc) = mid.procs := by simp [Procs.set]
      rw [same] at kept
      exact kept
  | kill proc => exact inv.kill_spec proc enabled.2
  | reap proc => exact ⟨_, rfl, inv.reap_spec proc enabled.1 enabled.2.1 enabled.2.2⟩
  | yield =>
      refine ⟨_, rfl, ?_⟩
      exact inv.touch_current { s.procs s.current with needResched := true } s.registered (fun same => same ▸ inv.idleRuns)
        (inv.slices _ current) (inv.asleep _ current) (fun _ waits => .inl waits) (fun waits => (inv.alive _ waits).2)
  | schedule => exact inv.schedule_spec
  | tick expired => exact inv.tick_spec expired enabled

theorem boot_settled (procs : Procs P) (idle : P) : Settled idle (boot procs idle) where
  idleUsed := by simp [boot]
  distinct := by simp [boot]
  counted := by simp [boot]
  few := by
    show (1 : Int) ≤ maxProcess
    decide
  currentUsed := by simp [boot]
  idleRuns := by simp [boot]
  queued := by simp [boot, RoundRobin.init]
  members := by
    intro proc
    simp only [boot, RoundRobin.init, List.not_mem_nil, false_iff, not_and, List.mem_singleton, Outside]
    exact fun isIdle _ apart => apart (.inl isIdle)
  procNum := by simp [boot, RoundRobin.init]
  slice := rfl
  sliced := by simp [boot, RoundRobin.init]
  slices := by simp [boot, allocProc]
  asleep := by simp [boot, allocProc]
  alive := by simp [boot]

end Calls

-- In every reachable state the queue is as it should be, and no assertion fails in
-- any step from there.
theorem run_queue_exact (procs : Procs P) (idle : P) (events : List (RunCall P)) (final : RunState P)
    (met : Throughout (step idle) (Enabled idle) (boot procs idle) events) (ran : run (step idle) (boot procs idle) events = some final) :
    RunQueueOk idle final ∧ ∀ event, final.Enabled idle event → ∃ next, final.call idle event = .ok next := by
  have inv : Settled idle final := by
    refine run_invariant (step idle) (Enabled idle) (Settled idle) ?_ events (boot procs idle) final (boot_settled procs idle) met ran
    intro s event next settled enabled taken
    obtain ⟨reached, returns, kept⟩ := settled.call_spec event enabled
    simp only [step, returns, Option.some.injEq] at taken
    exact taken ▸ kept
  refine ⟨settled_ok idle final inv, fun event enabled => ?_⟩
  obtain ⟨next, returns, _⟩ := inv.call_spec event enabled
  exact ⟨next, returns⟩

-- A process is woken by its timer after it has marked itself sleeping and before it
-- has called schedule().
def runCalls : List (RunCall (Fin 3)) :=
  [.fork (some 1) true, .schedule, .fork (some 2) true, .block wtTimer true, .tick [1], .schedule, .tick [], .block wtChild false, .schedule,
    .resumed, .exit 0 [2], .schedule, .resumed, .reap 1, .yield, .schedule]

theorem run_queue_exact_three : ∃ final, run (step 0) (boot (fun _ : Fin 3 => allocProc) 0) runCalls = some final ∧ RunQueueOk 0 final ∧
    ∀ event, final.Enabled 0 event → ∃ next, final.call 0 event = .ok next := by
  have met : Throughout (step 0) (Enabled 0) (boot (fun _ : Fin 3 => allocProc) 0) runCalls := by decide +kernel
  have returns : (run (step 0) (boot (fun _ : Fin 3 => allocProc) 0) runCalls).isSome = true := by decide +kernel
  obtain ⟨final, ran⟩ := Option.isSome_iff_exists.mp returns
  exact ⟨final, ran, run_queue_exact (fun _ => allocProc) 0 runCalls final met ran⟩

end RunState

end Ucore.Sched
