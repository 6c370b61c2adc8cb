import Mathlib.Algebra.Order.BigOperators.Group.List
import Ucore.Sched.RunQueueSafe

set_option autoImplicit false

namespace Ucore.Sched

open Ucore.Lib Ucore.Proc

variable {P : Type} [DecidableEq P]

namespace RunState

-- The current process, and behind it those that wait for the processor.
def line (s : RunState P) : List P := s.current :: s.rq.runList

def quiet (s : RunState P) : RunState P := { s with procs := s.procs.set s.current { s.procs s.current with needResched := false } }

-- schedule() from where the current process has gone into the queue if it may.
def switch (idle : P) (s : RunState P) : Except Fault (RunState P) :=
  match s.rq.pickNext with
  | some next => do
      let rq ← s.rq.dequeue s.procs next
      return { s with rq := rq, current := next }
  | none => return { s with current := idle }

theorem schedule_parts (idle : P) (s : RunState P) :
    s.schedule idle = (if (s.quiet.procs s.current).state = .runnable then s.quiet.enqueue idle s.current else .ok s.quiet) >>= switch idle := by
  simp only [schedule]
  by_cases runs : (s.quiet.procs s.current).state = .runnable
  · rw [if_pos runs]
    exact if_pos runs
  · rw [if_neg runs]
    exact if_neg runs

-- What a step that neither schedules nor ticks leaves alone.
structure Appended (s s' : RunState P) : Prop where
  queue : ∃ more, s'.rq.runList = s.rq.runList ++ more
  current : s'.current = s.current
  slices : ∀ proc ∈ s.line, (s'.procs proc).timeSlice = (s.procs proc).timeSlice
  asked : (s.procs s.current).needResched = true → (s'.procs s.current).needResched = true

omit [DecidableEq P] in
theorem Appended.refl (s : RunState P) : Appended s s := ⟨⟨[], by simp⟩, rfl, fun _ _ => rfl, fun asked => asked⟩

omit [DecidableEq P] in
theorem Appended.line {s s' : RunState P} (appended : Appended s s') : ∃ more, s'.line = s.line ++ more := by
  obtain ⟨more, queue⟩ := appended.queue
  exact ⟨more, by rw [RunState.line, RunState.line, appended.current, queue, List.cons_append]⟩

omit [DecidableEq P] in
theorem Appended.trans {s mid s' : RunState P} (first : Appended s mid) (second : Appended mid s') : Appended s s' where
  queue := by
    obtain ⟨more, queue⟩ := first.queue
    obtain ⟨later, queue'⟩ := second.queue
    exact ⟨more ++ later, by rw [queue', queue, List.append_assoc]⟩
  current := second.current.trans first.current
  slices := by
    intro proc member
    obtain ⟨more, grown⟩ := first.line
    rw [second.slices proc (by rw [grown]; exact List.mem_append_left _ member), first.slices proc member]
  asked := by
    intro asked
    have still := second.asked (by rw [first.current]; exact first.asked asked)
    rwa [first.current] at still

-- A change of one process that keeps its slice, or is of one outside the line.
theorem Appended.touch (s : RunState P) (proc : P) (entry : ProcStruct P)
    (slice : proc ∈ s.line → entry.timeSlice = (s.procs proc).timeSlice)
    (asked : proc = s.current → (s.procs proc).needResched = true → entry.needResched = true) :
    Appended s { s with procs := s.procs.set proc entry } where
  queue := ⟨[], by simp⟩
  current := rfl
  slices := by
    intro other member
    by_cases here : other = proc
    · subst here
      simpa using slice member
    · simp [here]
  asked := by
    intro before
    by_cases here : s.current = proc
    · subst here
      simpa using asked rfl before
    · simpa [here] using before

theorem enqueue_appended (idle : P) (s s' : RunState P) (proc : P) (other : proc ≠ s.current) (ran : s.enqueue idle proc = .ok s') :
    Appended s s' := by
  by_cases notIdle : proc ≠ idle
  · rw [enqueue, if_pos notIdle] at ran
    obtain ⟨queued, entered, last⟩ := bind_ok ran
    obtain ⟨fresh, shape⟩ := check_bind_ok entered
    have unlinked : proc ∉ s.rq.runList := by simpa using fresh
    obtain rfl := Except.ok.inj shape
    obtain rfl := Except.ok.inj last
    have touched := Appended.touch s proc
      { s.procs proc with
        timeSlice := if (s.procs proc).timeSlice = 0 ∨ (s.procs proc).timeSlice > s.rq.maxTimeSlice then s.rq.maxTimeSlice
          else (s.procs proc).timeSlice
        onRq := true }
      (fun member => absurd member (by simp [line, other, unlinked])) (fun same => absurd same other)
    exact ⟨⟨[proc], rfl⟩, rfl, touched.slices, touched.asked⟩
  · rw [enqueue, if_neg notIdle] at ran
    obtain rfl := Except.ok.inj ran
    exact .refl s

theorem wakeup_proc_appended (idle : P) (s s' : RunState P) (proc : P) (ran : s.wakeupProc idle proc = .ok s') : Appended s s' := by
  obtain ⟨_, ran⟩ := check_bind_ok ran
  have touched := Appended.touch s proc { s.procs proc with state := .runnable, waitState := 0 } (fun _ => rfl) (fun _ asked => asked)
  by_cases sleeps : (s.procs proc).state ≠ .runnable
  · rw [if_pos sleeps] at ran
    by_cases other : proc ≠ s.current
    · simp only [if_pos other] at ran
      exact touched.trans (enqueue_appended idle _ s' proc other ran)
    · simp only [if_neg other] at ran
      obtain rfl := Except.ok.inj ran
      exact touched
  · rw [if_neg sleeps] at ran
    obtain rfl := Except.ok.inj ran
    exact .refl s

theorem wake_all_appended (idle : P) (procs : List P) (s s' : RunState P) (ran : wakeAll idle procs s = .ok s') : Appended s s' := by
  induction procs generalizing s with
  | nil =>
      obtain rfl := Except.ok.inj ran
      exact .refl s
  | cons proc rest ih =>
      obtain ⟨mid, woken, later⟩ := bind_ok ran
      exact (wakeup_proc_appended idle s mid proc woken).trans (ih mid later)

theorem visit_all_appended (idle : P) (visits : List P) (s s' : RunState P) (ran : visitAll idle visits s = .ok s') : Appended s s' := by
  induction visits generalizing s with
  | nil =>
      obtain rfl := Except.ok.inj ran
      exact .refl s
  | cons proc rest ih =>
      obtain ⟨mid, visited, later⟩ := bind_ok ran
      refine Appended.trans ?_ (ih mid later)
      by_cases waits : (s.procs proc).waitState = wtChild
      · rw [if_pos waits] at visited
        exact wakeup_proc_appended idle s mid proc visited
      · rw [if_neg waits] at visited
        obtain rfl := Except.ok.inj visited
        exact .refl s

theorem do_kill_appended (idle : P) (s s' : RunState P) (proc : P) (ran : s.doKill idle proc = .ok s') : Appended s s' := by
  by_cases killed : (s.procs proc).exiting = true
  · rw [doKill, if_pos killed] at ran
    obtain rfl := Except.ok.inj ran
    exact .refl s
  · rw [doKill, if_neg killed] at ran
    have touched := Appended.touch s proc { s.procs proc with exiting := true } (fun _ => rfl) (fun _ asked => asked)
    by_cases wakes : interruptible (s.procs proc).waitState = true
    · simp only [Procs.set_here, if_pos wakes] at ran
      exact touched.trans (wakeup_proc_appended idle _ s' proc ran)
    · simp only [Procs.set_here, if_neg wakes] at ran
      obtain rfl := Except.ok.inj ran
      exact touched

section Settled

variable {idle : P} {s s' : RunState P}

omit [DecidableEq P] in
theorem Settled.line_used (inv : Settled idle s) (proc : P) (member : proc ∈ s.line) : proc ∈ s.inUse := by
  cases List.mem_cons.mp member with
  | inl same => exact same ▸ inv.currentUsed
  | inr linked => exact ((inv.members proc).mp linked).1

theorem Settled.do_fork_appended (inv : Settled idle s) (proc : Option P) (ready : Bool) (fresh : ∀ given ∈ proc, given ∉ s.inUse)
    (ran : s.doFork idle proc ready = .ok s') : Appended s s' := by
  by_cases room : maxProcess ≤ s.nrProcess
  · simp only [doFork, if_pos room] at ran
    obtain rfl := Except.ok.inj ran
    exact .refl s
  · simp only [doFork, if_neg room] at ran
    cases proc with
    | none =>
        obtain rfl := Except.ok.inj ran
        exact .refl s
    | some given =>
        have unused : given ∉ s.line := fun member => fresh given rfl (inv.line_used given member)
        have apart : given ≠ s.current := fun same => unused (by simp [line, same])
        have created := Appended.touch s given { allocProc with parent := some s.current } (fun member => absurd member unused)
          (fun same => absurd same apart)
        have cleared := Appended.touch { s with procs := s.procs.set given { allocProc with parent := some s.current } } s.current
          { (s.procs.set given { allocProc with parent := some s.current }) s.current with waitState := 0 } (fun _ => rfl) (fun _ asked => asked)
        have forked := created.trans cleared
        cases ready with
        | false =>
            obtain rfl := Except.ok.inj ran
            exact forked
        | true =>
            have linked := wakeup_proc_appended idle _ s' given ran
            exact forked.trans ⟨linked.queue, linked.current, linked.slices, linked.asked⟩

-- Every call but schedule() and the tick.
theorem Settled.call_appended (inv : Settled idle s) (event : RunCall P) (enabled : s.Enabled idle event)
    (calm : event ≠ .schedule ∧ ∀ expired, event ≠ .tick expired) (ran : s.call idle event = .ok s') : Appended s s' := by
  cases event with
  | fork proc ready => exact inv.do_fork_appended proc ready enabled.2 ran
  | exit errorCode visits =>
      have gone := Appended.touch s s.current { s.procs s.current with state := .zombie, exitCode := errorCode } (fun _ => rfl) (fun _ asked => asked)
      exact gone.trans (visit_all_appended idle visits _ s' ran)
  | block waitState registers =>
      obtain rfl := Except.ok.inj ran
      have touched := Appended.touch s s.current { s.procs s.current with state := .sleeping, waitState := waitState } (fun _ => rfl)
        (fun _ asked => asked)
      exact ⟨touched.queue, touched.current, touched.slices, touched.asked⟩
  | resumed =>
      obtain rfl := Except.ok.inj ran
      exact ⟨⟨[], by simp⟩, rfl, fun _ _ => rfl, fun asked => asked⟩
  | wake proc =>
      obtain ⟨mid, woken, last⟩ := bind_ok ran
      obtain rfl := Except.ok.inj last
      have appended := wakeup_proc_appended idle s mid proc woken
      exact ⟨appended.queue, appended.current, appended.slices, appended.asked⟩
  | kill proc => exact do_kill_appended idle s s' proc ran
  | reap proc =>
      obtain rfl := Except.ok.inj ran
      exact ⟨⟨[], by simp⟩, rfl, fun _ _ => rfl, fun asked => asked⟩
  | yield =>
      obtain rfl := Except.ok.inj ran
      exact Appended.touch s s.current { s.procs s.current with needResched := true } (fun _ => rfl) (fun _ _ => rfl)
  | schedule => exact absurd rfl calm.1
  | tick expired => exact absurd rfl (calm.2 expired)

-- schedule() up to where it picks: those that wait stay in their order, and whoever
-- is in the queue has a slice.
theorem Settled.schedule_begun (inv : Settled idle s) (ran : s.schedule idle = .ok s') :
    ∃ begun, switch idle begun = .ok s' ∧ (∃ more, begun.rq.runList = s.rq.runList ++ more) ∧
      (∀ proc ∈ s.rq.runList, begun.procs proc = s.procs proc) ∧
      ∀ proc ∈ begun.rq.runList, 0 < (begun.procs proc).timeSlice ∧ (begun.procs proc).timeSlice ≤ Ucore.Sched.maxTimeSlice := by
  have apart : ∀ proc ∈ s.rq.runList, proc ≠ s.current := fun proc linked same =>
    inv.outside_unlinked proc (.inl same) linked
  have sliced : ∀ proc ∈ s.rq.runList, 0 < (s.procs proc).timeSlice ∧ (s.procs proc).timeSlice ≤ Ucore.Sched.maxTimeSlice := fun proc linked =>
    ⟨(inv.sliced proc linked).1, inv.slice ▸ (inv.sliced proc linked).2.1⟩
  rw [schedule_parts] at ran
  obtain ⟨begun, entered, taken⟩ := bind_ok ran
  refine ⟨begun, taken, ?_⟩
  have unmoved : begun = s.quiet → (∃ more, begun.rq.runList = s.rq.runList ++ more) ∧
      (∀ proc ∈ s.rq.runList, begun.procs proc = s.procs proc) ∧
      ∀ proc ∈ begun.rq.runList, 0 < (begun.procs proc).timeSlice ∧ (begun.procs proc).timeSlice ≤ Ucore.Sched.maxTimeSlice := by
    rintro rfl
    refine ⟨⟨[], by simp [quiet]⟩, fun proc linked => by simp [quiet, apart proc linked], fun proc linked => ?_⟩
    simpa [quiet, apart proc linked] using sliced proc linked
  by_cases runs : (s.quiet.procs s.current).state = .runnable
  · rw [if_pos runs] at entered
    by_cases notIdle : s.current ≠ idle
    · rw [enqueue, if_pos notIdle] at entered
      obtain ⟨_, joined, last⟩ := bind_ok entered
      obtain ⟨_, shape⟩ := check_bind_ok joined
      obtain rfl := Except.ok.inj shape
      obtain rfl := Except.ok.inj last
      refine ⟨⟨[s.current], rfl⟩, fun proc linked => by simp [quiet, apart proc linked], fun proc linked => ?_⟩
      cases List.mem_append.mp linked with
      | inl old => simpa [quiet, apart proc old] using sliced proc old
      | inr new =>
          obtain rfl := List.mem_singleton.mp new
          have slice := inv.slices s.current inv.currentUsed
          have limit := inv.slice
          have positive : 0 < Ucore.Sched.maxTimeSlice := by decide
          simp only [quiet, Procs.set_here, limit]
          constructor <;> split <;> omega
    · rw [enqueue, if_neg notIdle] at entered
      exact unmoved (Except.ok.inj entered).symm
  · rw [if_neg runs] at entered
    exact unmoved (Except.ok.inj entered).symm

-- With processes waiting the first of them is current afterwards, and the others
-- move up.
theorem Settled.schedule_line (inv : Settled idle s) (first : P) (rest : List P) (waiting : s.rq.runList = first :: rest)
    (ran : s.schedule idle = .ok s') :
    (∃ more, s'.line = s.rq.runList ++ more) ∧ ∀ proc ∈ s.rq.runList, s'.procs proc = s.procs proc := by
  obtain ⟨begun, taken, ⟨more, queue⟩, same, _⟩ := inv.schedule_begun ran
  have head : begun.rq.pickNext = some first := by simp [RoundRobin.pickNext, queue, waiting]
  rw [switch, head] at taken
  obtain ⟨rq, removed, last⟩ := bind_ok taken
  obtain ⟨_, shape⟩ := check_bind_ok removed
  obtain rfl := Except.ok.inj shape
  obtain rfl := Except.ok.inj last
  exact ⟨⟨more, by simp [line, queue, waiting]⟩, same⟩

-- What a process other than idleproc has of its slice while nobody has asked it to
-- give up the processor.
def Fed (idle : P) (s : RunState P) : Prop :=
  s.current ≠ idle → (s.procs s.current).needResched = false →
    0 < (s.procs s.current).timeSlice ∧ (s.procs s.current).timeSlice ≤ Ucore.Sched.maxTimeSlice

theorem Settled.schedule_fed (inv : Settled idle s) (ran : s.schedule idle = .ok s') : Fed idle s' := by
  intro notIdle _
  obtain ⟨begun, taken, _, _, sliced⟩ := inv.schedule_begun ran
  cases picked : begun.rq.pickNext with
  | none =>
      rw [switch, picked] at taken
      obtain rfl := Except.ok.inj taken
      exact absurd rfl notIdle
  | some next =>
      rw [switch, picked] at taken
      obtain ⟨rq, removed, last⟩ := bind_ok taken
      obtain rfl := Except.ok.inj last
      exact sliced next (List.mem_of_mem_head? picked)

omit [DecidableEq P] in
theorem Appended.fed (fed : Fed idle s) (appended : Appended s s') : Fed idle s' := by
  intro notIdle unasked
  rw [appended.current] at notIdle unasked ⊢
  rw [appended.slices s.current (by simp [RunState.line])]
  refine fed notIdle ?_
  by_contra asked
  have still := appended.asked (by simpa using asked)
  rw [unasked] at still
  exact absurd still (by decide)

-- A tick, but for the waking of those whose timers run out: it may shorten the
-- slice of the current process, and ask it to give up the processor.
theorem Settled.tick_appended (inv : Settled idle s) (expired : List P) (waiting : ∀ proc ∈ expired, s.registered proc = true)
    (ran : s.tick idle expired = .ok s') :
    ∃ mid, Appended s mid ∧ Settled idle mid ∧ s'.line = mid.line ∧ s'.procs =
      if mid.current ≠ idle then RoundRobin.procTick mid.procs mid.current
      else mid.procs.set mid.current { mid.procs mid.current with needResched := true } := by
  obtain ⟨mid, woken, last⟩ := bind_ok ran
  obtain ⟨other, returns, kept, _⟩ := Settled.wake_all_spec expired s inv fun proc member => inv.alive proc (waiting proc member)
  obtain rfl := Except.ok.inj (returns.symm.trans woken)
  refine ⟨other, wake_all_appended idle expired s other woken, kept, ?_⟩
  by_cases notIdle : other.current ≠ idle
  · simp only [if_pos notIdle] at last
    obtain rfl := Except.ok.inj last
    exact ⟨rfl, (if_pos notIdle).symm⟩
  · simp only [if_neg notIdle] at last
    obtain rfl := Except.ok.inj last
    exact ⟨rfl, (if_neg notIdle).symm⟩

end Settled

section Turns

variable {idle : P}

def isSchedule : RunCall P → Bool
  | .schedule => true
  | _ => false

-- How often schedule() has been called.
def turns (events : List (RunCall P)) : Nat := events.countP isSchedule

theorem step_call (s next : RunState P) (event : RunCall P) (taken : step idle s event = some next) : s.call idle event = .ok next := by
  cases returns : s.call idle event with
  | error fault => simp [step, returns] at taken
  | ok reached =>
      have same : reached = next := by simpa [step, returns] using taken
      rw [same]

theorem Settled.step_settled (s : RunState P) (event : RunCall P) (next : RunState P) (inv : Settled idle s) (enabled : s.Enabled idle event)
    (taken : step idle s event = some next) : Settled idle next := by
  obtain ⟨reached, returns, kept⟩ := inv.call_spec event enabled
  obtain rfl := Except.ok.inj (returns.symm.trans (step_call s next event taken))
  exact kept

theorem reached_settled (procs : Procs P) (idle : P) (events : List (RunCall P)) (s : RunState P)
    (met : Throughout (step idle) (Enabled idle) (boot procs idle) events) (ran : run (step idle) (boot procs idle) events = some s) :
    Settled idle s :=
  run_invariant (step idle) (Enabled idle) (Settled idle) Settled.step_settled events (boot procs idle) s (boot_settled procs idle) met ran

-- Nobody but schedule() changes who is first in the line, and nobody at all jumps it.
theorem Settled.step_line (s next : RunState P) (event : RunCall P) (inv : Settled idle s) (enabled : s.Enabled idle event)
    (stays : isSchedule event = false) (taken : step idle s event = some next) : ∃ more, next.line = s.line ++ more := by
  have returns := step_call s next event taken
  by_cases ticks : ∃ expired, event = .tick expired
  · obtain ⟨expired, rfl⟩ := ticks
    obtain ⟨mid, appended, _, same, _⟩ := inv.tick_appended expired enabled returns
    rw [same]
    exact appended.line
  · have calm : event ≠ .schedule ∧ ∀ expired, event ≠ .tick expired :=
      ⟨fun same => by simp [same, isSchedule] at stays, fun expired same => ticks ⟨expired, same⟩⟩
    exact (inv.call_appended event enabled calm returns).line

-- Induction over the run: the line loses its first with each schedule() and grows
-- at its end only.
theorem turns_line (events : List (RunCall P)) (s final : RunState P) (inv : Settled idle s) (met : Throughout (step idle) (Enabled idle) s events)
    (ran : run (step idle) s events = some final) (enough : turns events ≤ s.rq.runList.length) :
    ∃ more, final.line = s.line.drop (turns events) ++ more := by
  induction events generalizing s with
  | nil =>
      obtain rfl := Option.some.inj ran
      exact ⟨[], by simp [turns]⟩
  | cons event rest ih =>
      cases taken : step idle s event with
      | none => simp [run, taken] at ran
      | some next =>
          simp only [run, taken, Option.bind_some] at ran
          have kept := Settled.step_settled s event next inv met.1 taken
          by_cases schedules : isSchedule event = true
          · have counted : turns (event :: rest) = turns rest + 1 := by simp [turns, schedules]
            have isCall : event = .schedule := by
              cases event <;> simp [isSchedule] at schedules ⊢
            subst isCall
            cases waiting : s.rq.runList with
            | nil =>
                rw [waiting, counted] at enough
                exact absurd enough (by simp)
            | cons first others =>
                obtain ⟨⟨more, moved⟩, _⟩ := inv.schedule_line first others waiting (step_call s next _ taken)
                have left : turns rest ≤ next.rq.runList.length := by
                  have size := congrArg List.length moved
                  simp only [line, List.length_cons, List.length_append] at size
                  rw [counted] at enough
                  omega
                obtain ⟨later, after⟩ := ih next kept (met.2 next taken) ran left
                rw [counted] at enough
                refine ⟨more ++ later, ?_⟩
                rw [after, moved, counted, line, List.drop_succ_cons, List.drop_append_of_le_length (by omega), List.append_assoc]
          · have plain : isSchedule event = false := by simpa using schedules
            have counted : turns (event :: rest) = turns rest := by simp [turns, plain]
            obtain ⟨more, grown⟩ := Settled.step_line s next event inv met.1 plain taken
            have size := congrArg List.length grown
            simp only [line, List.length_cons, List.length_append] at size
            rw [counted] at enough ⊢
            obtain ⟨later, after⟩ := ih next kept (met.2 next taken) ran (by omega)
            refine ⟨more ++ later, ?_⟩
            rw [after, grown, List.drop_append_of_le_length (by simp only [line, List.length_cons]; omega), List.append_assoc]

-- From every reachable state on: after so many calls of schedule() the processor is
-- with the process that stood there in the line, and those behind it have kept
-- their order.
theorem round_robin_in_order (procs : Procs P) (idle : P) (before events : List (RunCall P)) (s final : RunState P)
    (begins : Throughout (step idle) (Enabled idle) (boot procs idle) before) (reached : run (step idle) (boot procs idle) before = some s)
    (met : Throughout (step idle) (Enabled idle) s events) (ran : run (step idle) s events = some final)
    (enough : turns events ≤ s.rq.runList.length) :
    s.line[turns events]? = some final.current ∧ s.rq.runList.drop (turns events) <+: final.rq.runList := by
  obtain ⟨more, moved⟩ := turns_line events s final (reached_settled procs idle before s begins reached) met ran enough
  have inside : turns events < s.line.length := by
    simp only [line, List.length_cons]
    omega
  rw [List.drop_eq_getElem_cons inside, line, List.cons_append] at moved
  obtain ⟨first, others⟩ := List.cons.inj moved
  refine ⟨by rw [List.getElem?_eq_getElem inside, first], ⟨more, ?_⟩⟩
  rw [others]
  rfl

end Turns

section Waiting

variable {idle : P}

-- The ticks that the current process may still see before it is asked to give up
-- the processor: idleproc is asked by the first.
def owed (idle : P) (s : RunState P) : Int :=
  if (s.procs s.current).needResched = true then 0
  else if s.current = idle then 1
  else (s.procs s.current).timeSlice

def sliceBefore (s : RunState P) (place : Nat) : Int := ((s.rq.runList.take place).map fun proc => (s.procs proc).timeSlice).sum

-- The ticks that come before the turn of the process at this place in the queue.
def wait (idle : P) (s : RunState P) (place : Nat) : Int := owed idle s + sliceBefore s place

-- A tick that the current process has not yet been asked to give way to.
def spends (s : RunState P) : RunCall P → Bool
  | .tick _ => !(s.procs s.current).needResched
  | _ => false

def ticksSpent (idle : P) : RunState P → List (RunCall P) → Nat
  | _, [] => 0
  | s, event :: events =>
      (if spends s event = true then 1 else 0) +
        match step idle s event with
        | some next => ticksSpent idle next events
        | none => 0

theorem owed_nonneg (s : RunState P) (fed : Fed idle s) : 0 ≤ owed idle s := by
  by_cases asked : (s.procs s.current).needResched = true
  · rw [owed, if_pos asked]
  · rw [owed, if_neg asked]
    by_cases isIdle : s.current = idle
    · rw [if_pos isIdle]
      decide
    · rw [if_neg isIdle]
      exact Int.le_of_lt (fed isIdle (by simpa using asked)).1

theorem owed_le (s : RunState P) (fed : Fed idle s) : owed idle s ≤ Ucore.Sched.maxTimeSlice := by
  by_cases asked : (s.procs s.current).needResched = true
  · rw [owed, if_pos asked]
    decide
  · rw [owed, if_neg asked]
    by_cases isIdle : s.current = idle
    · rw [if_pos isIdle]
      decide
    · rw [if_neg isIdle]
      exact (fed isIdle (by simpa using asked)).2

omit [DecidableEq P] in
theorem Settled.slice_before_nonneg (s : RunState P) (inv : Settled idle s) (place : Nat) : 0 ≤ sliceBefore s place :=
  List.sum_nonneg fun slice member => by
    obtain ⟨proc, linked, same⟩ := List.mem_map.mp member
    rw [← same]
    exact Int.le_of_lt (inv.sliced proc (List.mem_of_mem_take linked)).1

omit [DecidableEq P] in
theorem Settled.slice_before_le (s : RunState P) (inv : Settled idle s) (place : Nat) :
    sliceBefore s place ≤ place * Ucore.Sched.maxTimeSlice := by
  have each := List.sum_le_card_nsmul ((s.rq.runList.take place).map fun proc => (s.procs proc).timeSlice) Ucore.Sched.maxTimeSlice
    (fun slice member => by
      obtain ⟨proc, linked, same⟩ := List.mem_map.mp member
      rw [← same, ← inv.slice]
      exact (inv.sliced proc (List.mem_of_mem_take linked)).2.1)
  have size : ((s.rq.runList.take place).map fun proc => (s.procs proc).timeSlice).length ≤ place := by simp
  have positive : (0 : Int) ≤ Ucore.Sched.maxTimeSlice := by decide
  have widened := Int.mul_le_mul_of_nonneg_right (Int.ofNat_le.mpr size) positive
  rw [nsmul_eq_mul] at each
  exact each.trans widened

omit [DecidableEq P] in
theorem slice_before_congr (s next : RunState P) (place : Nat) (inside : place ≤ s.rq.runList.length)
    (grown : ∃ more, next.rq.runList = s.rq.runList ++ more)
    (same : ∀ proc ∈ s.rq.runList, (next.procs proc).timeSlice = (s.procs proc).timeSlice) : sliceBefore next place = sliceBefore s place := by
  obtain ⟨more, queue⟩ := grown
  rw [sliceBefore, sliceBefore, queue, List.take_append_of_le_length inside]
  congr 1
  exact List.map_congr_left fun proc linked => same proc (List.mem_of_mem_take linked)

theorem Appended.owed (s next : RunState P) (fed : Fed idle s) (appended : Appended s next) : owed idle next ≤ owed idle s := by
  have least := owed_nonneg s fed
  rw [RunState.owed, appended.current, appended.slices s.current (by simp [RunState.line])]
  by_cases asked : (next.procs s.current).needResched = true
  · rw [if_pos asked]
    exact least
  · rw [if_neg asked, RunState.owed, if_neg fun before => asked (appended.asked before)]

theorem Appended.wait (s next : RunState P) (fed : Fed idle s) (appended : Appended s next) (place : Nat) (inside : place ≤ s.rq.runList.length) :
    wait idle next place ≤ wait idle s place := by
  have before := slice_before_congr s next place inside appended.queue fun proc linked => appended.slices proc (List.mem_cons_of_mem _ linked)
  rw [RunState.wait, RunState.wait, before]
  exact Int.add_le_add_right (appended.owed s next fed) _

-- A tick takes one from what the current process is owed.
theorem tick_owed (s : RunState P) (fed : Fed idle s) (next : RunState P) (current : next.current = s.current)
    (ticked : next.procs = if s.current ≠ idle then RoundRobin.procTick s.procs s.current
      else s.procs.set s.current { s.procs s.current with needResched := true }) :
    Fed idle next ∧ owed idle next ≤ max (owed idle s - 1) 0 := by
  by_cases isIdle : s.current = idle
  · rw [if_neg (not_not.mpr isIdle)] at ticked
    refine ⟨fun notIdle => absurd (current.trans isIdle) notIdle, ?_⟩
    have asked : (next.procs next.current).needResched = true := by simp [ticked, current]
    rw [owed, if_pos asked]
    exact le_max_right _ _
  · rw [if_pos isIdle] at ticked
    have entry : next.procs next.current = { s.procs s.current with
        timeSlice := if 0 < (s.procs s.current).timeSlice then (s.procs s.current).timeSlice - 1 else (s.procs s.current).timeSlice
        needResched := if (if 0 < (s.procs s.current).timeSlice then (s.procs s.current).timeSlice - 1 else (s.procs s.current).timeSlice) = 0
          then true else (s.procs s.current).needResched } := by
      rw [ticked, current, RoundRobin.procTick, Procs.set_here]
    by_cases asked : (next.procs next.current).needResched = true
    · refine ⟨fun _ unasked => absurd asked (by simp [unasked]), ?_⟩
      rw [owed, if_pos asked]
      exact le_max_right _ _
    · have unended : ¬ (if 0 < (s.procs s.current).timeSlice then (s.procs s.current).timeSlice - 1 else (s.procs s.current).timeSlice) = 0 :=
        fun ended => asked (by rw [entry]; exact if_pos ended)
      have unasked : (s.procs s.current).needResched = false := by
        rw [entry] at asked
        simpa only [if_neg unended, Bool.not_eq_true] using asked
      obtain ⟨positive, limit⟩ := fed isIdle unasked
      rw [if_pos positive] at unended
      have slice : (next.procs next.current).timeSlice = (s.procs s.current).timeSlice - 1 := by
        rw [entry]
        exact if_pos positive
      refine ⟨fun _ _ => ⟨by omega, by omega⟩, ?_⟩
      have notAsked : ¬ (s.procs s.current).needResched = true := by simp [unasked]
      have apart : ¬ next.current = idle := fun same => isIdle (current.symm.trans same)
      rw [owed, if_neg asked, if_neg apart, slice, owed, if_neg notAsked, if_neg isIdle]
      exact le_max_left _ _

theorem spends_owed (s : RunState P) (fed : Fed idle s) (event : RunCall P) (spent : spends s event = true) : 1 ≤ owed idle s := by
  have unasked : (s.procs s.current).needResched = false := by
    cases event <;> simp [spends] at spent ⊢
    exact spent
  rw [owed, if_neg (by simp [unasked])]
  by_cases isIdle : s.current = idle
  · rw [if_pos isIdle]
  · rw [if_neg isIdle]
    exact (fed isIdle unasked).1

theorem Settled.tick_wait (s next : RunState P) (inv : Settled idle s) (fed : Fed idle s) (expired : List P)
    (waiting : ∀ proc ∈ expired, s.registered proc = true) (ran : s.tick idle expired = .ok next) :
    Fed idle next ∧ ∀ place ≤ s.rq.runList.length,
      wait idle next place + (if spends s (.tick expired) = true then 1 else 0) ≤ wait idle s place := by
  obtain ⟨mid, appended, kept, same, ticked⟩ := inv.tick_appended expired waiting ran
  obtain ⟨current, queue⟩ := List.cons.inj same
  obtain ⟨nextFed, owes⟩ := tick_owed mid (appended.fed fed) next current ticked
  refine ⟨nextFed, fun place inside => ?_⟩
  have untouched : ∀ proc ∈ mid.rq.runList, (next.procs proc).timeSlice = (mid.procs proc).timeSlice := by
    intro proc linked
    have apart : proc ≠ mid.current := fun isCurrent => kept.outside_unlinked proc (.inl isCurrent) linked
    rw [ticked]
    split <;> simp [RoundRobin.procTick, apart]
  obtain ⟨more, grown⟩ := appended.queue
  have within : place ≤ mid.rq.runList.length := by
    rw [grown, List.length_append]
    omega
  have slices := slice_before_congr mid next place within ⟨[], by rw [queue, List.append_nil]⟩ untouched
  have before := slice_before_congr s mid place inside appended.queue fun proc linked => appended.slices proc (List.mem_cons_of_mem _ linked)
  have start := appended.owed s mid fed
  rw [wait, wait, slices, before]
  by_cases spent : spends s (.tick expired) = true
  · have one := spends_owed s fed _ spent
    rw [if_pos spent]
    omega
  · have least := owed_nonneg s fed
    rw [if_neg spent]
    omega

-- schedule() gives the processor to the first and moves the others up, and what the
-- next is owed is the slice it had in the queue.
theorem Settled.schedule_wait (s next : RunState P) (inv : Settled idle s) (fed : Fed idle s) (ran : s.schedule idle = .ok next)
    (place : Nat) (inside : place < s.rq.runList.length) :
    (place = 0 → s.rq.runList[place]? = some next.current) ∧
      ∀ ahead, place = ahead + 1 → next.rq.runList[ahead]? = s.rq.runList[place]? ∧ wait idle next ahead ≤ wait idle s place := by
  cases waiting : s.rq.runList with
  | nil =>
      rw [waiting] at inside
      exact absurd inside (by simp)
  | cons first rest =>
      obtain ⟨⟨more, moved⟩, same⟩ := inv.schedule_line first rest waiting ran
      rw [line, waiting, List.cons_append] at moved
      obtain ⟨current, queue⟩ := List.cons.inj moved
      refine ⟨?_, ?_⟩
      · rintro rfl
        rw [current]
        rfl
      · rintro ahead rfl
        have room : ahead < rest.length := by
          rw [waiting, List.length_cons] at inside
          omega
        refine ⟨by rw [queue, List.getElem?_append_left room]; rfl, ?_⟩
        have least := owed_nonneg s fed
        have notIdle : ¬ next.current = idle := by
          rw [current]
          have linked : first ∈ s.rq.runList := by simp [waiting]
          exact fun isIdle => ((inv.members first).mp linked).2.2 (.inr isIdle)
        have positive := (inv.sliced first (by simp [waiting])).1
        have owes : owed idle next ≤ (s.procs first).timeSlice := by
          rw [owed, if_neg notIdle, current, same first (by simp [waiting])]
          split <;> omega
        have split : sliceBefore s (ahead + 1) = (s.procs first).timeSlice + sliceBefore next ahead := by
          rw [sliceBefore, waiting, List.take_succ_cons, List.map_cons, List.sum_cons, sliceBefore, queue,
            List.take_append_of_le_length (Nat.le_of_lt room)]
          congr 2
          exact List.map_congr_left fun proc linked => by rw [same proc (by simp [waiting, List.mem_of_mem_take linked])]
        rw [wait, wait, split]
        omega

theorem Settled.step_fed (s : RunState P) (event : RunCall P) (next : RunState P) (inv : Settled idle s) (fed : Fed idle s)
    (enabled : s.Enabled idle event) (taken : step idle s event = some next) : Fed idle next := by
  have returns := step_call s next event taken
  by_cases schedules : event = .schedule
  · subst schedules
    exact inv.schedule_fed returns
  · by_cases ticks : ∃ expired, event = .tick expired
    · obtain ⟨expired, rfl⟩ := ticks
      exact (Settled.tick_wait s next inv fed expired enabled returns).1
    · exact (inv.call_appended event enabled ⟨schedules, fun expired same => ticks ⟨expired, same⟩⟩ returns).fed fed

-- One step: the process at a place gets the processor, or is at a place (the same,
-- or the one before it) from where what it waits for is less by the tick spent.
theorem Settled.step_wait (s : RunState P) (event : RunCall P) (next : RunState P) (inv : Settled idle s) (fed : Fed idle s)
    (enabled : s.Enabled idle event) (taken : step idle s event = some next) (place : Nat) (inside : place < s.rq.runList.length) :
    s.rq.runList[place]? = some next.current ∨ ∃ after, next.rq.runList[after]? = s.rq.runList[place]? ∧
      wait idle next after + (if spends s event = true then 1 else 0) ≤ wait idle s place := by
  have returns := step_call s next event taken
  by_cases schedules : event = .schedule
  · subst schedules
    obtain ⟨turn, moves⟩ := Settled.schedule_wait s next inv fed returns place inside
    cases place with
    | zero => exact .inl (turn rfl)
    | succ ahead =>
        obtain ⟨same, shorter⟩ := moves ahead rfl
        exact .inr ⟨ahead, same, by simpa [spends] using shorter⟩
  · have stays : isSchedule event = false := by
      cases event <;> simp [isSchedule] at schedules ⊢
    have grown : next.rq.runList[place]? = s.rq.runList[place]? := by
      obtain ⟨more, moved⟩ := Settled.step_line s next event inv enabled stays taken
      rw [line, line, List.cons_append] at moved
      rw [(List.cons.inj moved).2, List.getElem?_append_left inside]
    by_cases ticks : ∃ expired, event = .tick expired
    · obtain ⟨expired, rfl⟩ := ticks
      have shorter := (Settled.tick_wait s next inv fed expired enabled returns).2
      exact .inr ⟨place, grown, shorter place (Nat.le_of_lt inside)⟩
    · have appended := inv.call_appended event enabled ⟨schedules, fun expired same => ticks ⟨expired, same⟩⟩ returns
      have unspent : spends s event = false := by
        cases event <;> simp [spends] at ticks ⊢
      refine .inr ⟨place, grown, ?_⟩
      rw [unspent]
      simpa using appended.wait s next fed place (Nat.le_of_lt inside)

theorem boot_fed (procs : Procs P) : Fed idle (boot procs idle) := fun notIdle => absurd rfl notIdle

-- Induction over the run: each tick spent is one off the wait, which is never
-- negative, so the turn comes.
theorem ticks_wait (events : List (RunCall P)) (s : RunState P) (inv : Settled idle s) (fed : Fed idle s)
    (met : Throughout (step idle) (Enabled idle) s events) (place : Nat) (inside : place < s.rq.runList.length)
    (many : wait idle s place < ticksSpent idle s events) :
    ∃ earlier, earlier <+: events ∧ ∃ reached, run (step idle) s earlier = some reached ∧ s.rq.runList[place]? = some reached.current := by
  induction events generalizing s place with
  | nil =>
      have least := Int.add_nonneg (owed_nonneg s fed) (Settled.slice_before_nonneg s inv place)
      rw [wait, ticksSpent] at many
      omega
  | cons event rest ih =>
      obtain ⟨reached, returns, kept⟩ := inv.call_spec event met.1
      have taken : step idle s event = some reached := by rw [step, returns]
      have reachedFed := Settled.step_fed s event reached inv fed met.1 taken
      cases Settled.step_wait s event reached inv fed met.1 taken place inside with
      | inl current => exact ⟨[event], by simp, reached, by simp [run, taken], current⟩
      | inr waits =>
          obtain ⟨after, same, shorter⟩ := waits
          have within : after < reached.rq.runList.length := by
            rw [List.getElem?_eq_getElem inside] at same
            exact (List.getElem?_eq_some_iff.mp same).1
          have left : wait idle reached after < ticksSpent idle reached rest := by
            rw [ticksSpent, taken] at many
            push_cast at many
            omega
          obtain ⟨earlier, part, final, ran, current⟩ := ih reached kept reachedFed (met.2 reached taken) after within left
          exact ⟨event :: earlier, List.cons_prefix_cons.mpr ⟨rfl, part⟩, final, by simp [run, taken, ran], same ▸ current⟩

theorem wait_le (s : RunState P) (inv : Settled idle s) (fed : Fed idle s) (place : Nat) :
    wait idle s place ≤ (place + 1) * Ucore.Sched.maxTimeSlice := by
  have owes := owed_le s fed
  have before := Settled.slice_before_le s inv place
  rw [wait, Int.add_mul, Int.one_mul]
  omega

theorem reached_fed (procs : Procs P) (idle : P) (events : List (RunCall P)) (s : RunState P)
    (met : Throughout (step idle) (Enabled idle) (boot procs idle) events) (ran : run (step idle) (boot procs idle) events = some s) :
    Settled idle s ∧ Fed idle s :=
  run_invariant (step idle) (Enabled idle) (fun s => Settled idle s ∧ Fed idle s)
    (fun s event next inv enabled taken => ⟨Settled.step_settled s event next inv.1 enabled taken,
      Settled.step_fed s event next inv.1 inv.2 enabled taken⟩)
    events (boot procs idle) s ⟨boot_settled procs idle, boot_fed procs⟩ met ran

end Waiting

-- From every reachable state on: whoever waits is given the processor before more
-- ticks are spent than the current process is owed and those before it have in
-- their slices, which is at most a full slice for each.
theorem round_robin_bounded_wait (procs : Procs P) (idle : P) (before events : List (RunCall P)) (s : RunState P)
    (begins : Throughout (step idle) (Enabled idle) (boot procs idle) before) (reached : run (step idle) (boot procs idle) before = some s)
    (met : Throughout (step idle) (Enabled idle) s events) (place : Nat) (proc : P) (stands : s.rq.runList[place]? = some proc) :
    wait idle s place ≤ (place + 1) * Ucore.Sched.maxTimeSlice ∧ (wait idle s place < ticksSpent idle s events →
      ∃ earlier, earlier <+: events ∧ ∃ later, run (step idle) s earlier = some later ∧ later.current = proc) := by
  obtain ⟨inv, fed⟩ := reached_fed procs idle before s begins reached
  refine ⟨wait_le s inv fed place, fun many => ?_⟩
  have inside := (List.getElem?_eq_some_iff.mp stands).1
  obtain ⟨earlier, part, later, ran, current⟩ := ticks_wait events s inv fed met place inside many
  exact ⟨earlier, part, later, ran, Option.some.inj (current.symm.trans stands)⟩

-- Process 1 spends its slice while 2 waits behind it.
def twoFork : List (RunCall (Fin 3)) := [.fork (some 1) true, .schedule, .fork (some 2) true]

def twoTicks : List (RunCall (Fin 3)) := [.tick [], .tick [], .tick [], .tick [], .tick [], .schedule, .tick []]

theorem round_robin_in_order_two : ∃ s final, run (step 0) (boot (fun _ : Fin 3 => allocProc) 0) twoFork = some s ∧
    run (step 0) s twoTicks = some final ∧ s.line[1]? = some final.current := by
  have begins : Throughout (step 0) (Enabled 0) (boot (fun _ : Fin 3 => allocProc) 0) twoFork := by decide +kernel
  have returns : ((run (step 0) (boot (fun _ : Fin 3 => allocProc) 0) twoFork).bind fun s => run (step 0) s twoTicks).isSome = true := by
    decide +kernel
  have goesOn : ∀ s ∈ run (step 0) (boot (fun _ : Fin 3 => allocProc) 0) twoFork,
      Throughout (step 0) (Enabled 0) s twoTicks ∧ turns twoTicks ≤ s.rq.runList.length := by
    decide +kernel
  obtain ⟨final, both⟩ := Option.isSome_iff_exists.mp returns
  obtain ⟨s, reached, ran⟩ := Option.bind_eq_some_iff.mp both
  obtain ⟨met, enough⟩ := goesOn s reached
  exact ⟨s, final, reached, ran, (round_robin_in_order (fun _ => allocProc) 0 twoFork twoTicks s final begins reached met ran enough).1⟩

theorem round_robin_bounded_wait_two : ∃ s, run (step 0) (boot (fun _ : Fin 3 => allocProc) 0) twoFork = some s ∧
    ∃ earlier, earlier <+: twoTicks ∧ ∃ later, run (step 0) s earlier = some later ∧ later.current = 2 := by
  have begins : Throughout (step 0) (Enabled 0) (boot (fun _ : Fin 3 => allocProc) 0) twoFork := by decide +kernel
  have returns : (run (step 0) (boot (fun _ : Fin 3 => allocProc) 0) twoFork).isSome = true := by decide +kernel
  have goesOn : ∀ s ∈ run (step 0) (boot (fun _ : Fin 3 => allocProc) 0) twoFork,
      Throughout (step 0) (Enabled 0) s twoTicks ∧ s.rq.runList[0]? = some 2 ∧ wait 0 s 0 < ticksSpent 0 s twoTicks := by
    decide +kernel
  obtain ⟨s, reached⟩ := Option.isSome_iff_exists.mp returns
  obtain ⟨met, stands, many⟩ := goesOn s reached
  exact ⟨s, reached, (round_robin_bounded_wait (fun _ => allocProc) 0 twoFork twoTicks s begins reached met 0 2 stands).2 many⟩

end RunState

end Ucore.Sched
