import Ucore.Sync.MonitorInv

set_option autoImplicit false

namespace Ucore.Sync

open Ucore.Lib Ucore.Proc

namespace Monitor

variable {P C : Type} [DecidableEq P] [DecidableEq C] [Fintype P]

section Steps

variable (s : Monitor P C) (token : Token P C) (inv : MonInv s token) (proc : P)

include inv

-- A process that was handed an up and runs again has the monitor already.
theorem resume_inv (id : SemId C) (here : s.pc proc = sleepAt id) (runs : (s.waits.procs proc).state = .runnable) :
    ∃ next, s.resumeFrom proc id = .ok next ∧ MonInv next token ∧ token = .proc proc ∧ next.pc = Function.update s.pc proc (gotAt id) := by
  have outside : ∀ other, proc ∉ (s.sems other).queue := by
    intro other inside
    rw [(inv.queued other proc inside).2.1] at runs
    exact absurd runs (by simp)
  obtain ⟨flags, holds⟩ := inv.handed id proc here (outside id)
  have resumed := Semaphore.down_resumed_ok (s.sems id) s.waits proc flags (outside id)
  have same : (s.setSem id (s.sems id)) = s := by
    simp [setSem]
  have result : s.resumeFrom proc id = .ok (s.goto proc (gotAt id)) := by
    rw [resumeFrom, resumed, ok_bind, same, pure_ok]
  have others : ∀ other, other ≠ proc → active (s.pc other) = false := by
    intro other apart
    by_contra active
    exact apart (one_active s token inv proc other holds (by simpa using active))
  have moved : ∀ other, other ≠ proc → Function.update s.pc proc (gotAt id) other = s.pc other := fun other apart =>
    Function.update_of_ne apart _ _
  obtain ⟨signalers, waiters⟩ := moved_counts s token inv proc (gotAt id) (by rw [here, (down_signaling id).2])
    fun c => by rw [here, (down_waiting c id).2]
  refine ⟨s.goto proc (gotAt id), result, ?_, holds, rfl⟩
  refine ⟨inv.value, inv.drained, inv.distinct, ?_, inv.runs, ?_, ?_, ?_, signalers, waiters, ?_, ?_, ?_, ?_⟩
  · intro other waiting inside
    have apart : waiting ≠ proc := by
      rintro rfl
      exact outside other inside
    simpa [goto, apart] using inv.queued other waiting inside
  · intro other waiting asleep notIn
    have apart : waiting ≠ proc := by
      rintro rfl
      have awake : Function.update s.pc waiting (gotAt id) waiting = sleepAt other := asleep
      rw [Function.update_self] at awake
      have active := got_active id
      rw [awake, sleep_active] at active
      exact absurd active (by simp)
    exact inv.handed other waiting ((moved waiting apart).symm.trans asleep) notIn
  · intro other active
    by_cases equal : other = proc
    · rw [equal, holds]
    · have moving : Monitor.active (Function.update s.pc proc (gotAt id) other) = true := active
      rw [moved other equal, others other equal] at moving
      exact absurd moving (by simp)
  · intro other has
    rw [holds] at has
    obtain rfl := Token.proc.inj has
    exact .inl (by simpa [goto] using got_active id)
  · intro other c at'
    have moving : Function.update s.pc proc (gotAt id) other = .signalCount c ∨ Function.update s.pc proc (gotAt id) other = .signalUp c := at'
    by_cases equal : other = proc
    · subst equal
      rw [Function.update_self] at moving
      cases id <;> simp [gotAt] at moving
    · rw [moved other equal] at moving
      exact inv.willSignal other c moving
  · intro other at'
    have moving : (∃ c, Function.update s.pc proc (gotAt id) other = .waitUpNext c) ∨
        Function.update s.pc proc (gotAt id) other = .leaveUpNext := at'
    by_cases equal : other = proc
    · subst equal
      rw [Function.update_self] at moving
      cases id <;> simp [gotAt] at moving
    · rw [moved other equal] at moving
      exact inv.willHand other moving
  · intro c has
    rw [holds] at has
    exact absurd has (by simp)
  · intro has
    rw [holds] at has
    exact absurd has (by simp)

-- A waiter that is counted and not the process itself is on its way to sleep, or
-- is in the queue.
theorem waiter_there (c : C) (here : active (s.pc proc) = true) (notWaiting : waitingOn c (s.pc proc) = false) (some' : 0 < s.count c)
    (empty : (s.sems (.cv c)).queue = []) : ∃ other, other ≠ proc ∧ s.pc other = .waitDown c := by
  have holds := inv.active proc here
  rw [inv.waiters c, count_positive] at some'
  obtain ⟨other, waits⟩ := some'
  have apart : other ≠ proc := by
    rintro rfl
    rw [notWaiting] at waits
    exact absurd waits (by simp)
  have idle : active (s.pc other) = false := by
    by_contra runs
    exact apart (one_active s token inv proc other holds (by simpa using runs))
  have awake : s.pc other ≠ .waitSleep c := by
    intro asleep
    have has := (inv.handed (.cv c) other asleep (by simp [empty])).2
    rw [holds] at has
    exact apart (Token.proc.inj has).symm
  refine ⟨other, apart, ?_⟩
  cases place : s.pc other with
  | waitDown d =>
      rw [place] at waits
      rw [of_decide_eq_true waits]
  | waitSleep d =>
      rw [place] at waits
      rw [of_decide_eq_true waits] at place
      exact absurd place awake
  | _ => simp [place, waitingOn, active] at waits idle

theorem signaler_there (here : active (s.pc proc) = true) (notSignaling : signaling (s.pc proc) = false) (some' : 0 < s.nextCount)
    (empty : (s.sems .next).queue = []) : ∃ other, other ≠ proc ∧ s.pc other = .signalDown := by
  have holds := inv.active proc here
  rw [inv.signalers, count_positive] at some'
  obtain ⟨other, signals⟩ := some'
  have apart : other ≠ proc := by
    rintro rfl
    rw [notSignaling] at signals
    exact absurd signals (by simp)
  have idle : active (s.pc other) = false := by
    by_contra runs
    exact apart (one_active s token inv proc other holds (by simpa using runs))
  have awake : s.pc other ≠ .signalSleep := by
    intro asleep
    have has := (inv.handed .next other asleep (by simp [empty])).2
    rw [holds] at has
    exact apart (Token.proc.inj has).symm
  refine ⟨other, apart, ?_⟩
  cases place : s.pc other with
  | signalDown => rfl
  | signalSleep => exact absurd place awake
  | _ => simp [place, signaling, active] at signals idle

end Steps

def upAt : At C → Option (SemId C)
  | .signalUp c => some (.cv c)
  | .waitUpNext _ | .leaveUpNext => some .next
  | .waitUpMutex _ | .leaveUpMutex => some .mutex
  | _ => none

-- What a statement does with the token.
inductive Moved (s : Monitor P C) (token : Token P C) (proc : P) (next : Monitor P C) (token' : Token P C) : Prop where
  | idle (state : next = s) (kept : token' = token)
  | went (here : active (s.pc proc) = true) (there : active (next.pc proc) = true) (kept : token' = token)
  | up (id : SemId C) (here : upAt (s.pc proc) = some id)
      (given : token' = .sem id ∨ ∃ wait, s.pc wait = sleepAt id ∧ token' = .proc wait)
  | took (id : SemId C) (here : s.pc proc = downAt id) (free : token = .sem id) (taken : token' = .proc proc)
      (there : next.pc proc = gotAt id)
  | slept (id : SemId C) (here : s.pc proc = downAt id) (kept : token' = token) (there : next.pc proc = sleepAt id)
  | resumed (id : SemId C) (here : s.pc proc = sleepAt id) (holds : token = .proc proc) (kept : token' = token)
      (there : next.pc proc = gotAt id)

section Steps

variable (s : Monitor P C) (token : Token P C) (inv : MonInv s token) (proc : P)

-- One statement: it returns, the invariant goes on, and only the process itself
-- moves.
def Advances (act : Act C) : Prop := ∃ next token', s.call proc act = .ok next ∧ MonInv next token' ∧ Moved s token proc next token' ∧
  next.pc = Function.update s.pc proc (next.pc proc)

include inv

theorem went_advances (act : Act C) (place : At C) (nextCount : Int) (count : C → Int) (here : active (s.pc proc) = true)
    (stays : active place = true) (called : s.call proc act = .ok ({ s with nextCount := nextCount, count := count }.goto proc place))
    (signalers : nextCount = s.nextCount - indicator (signaling (s.pc proc)) + indicator (signaling place))
    (waiters : ∀ c, count c = s.count c - indicator (waitingOn c (s.pc proc)) + indicator (waitingOn c place))
    (willSignal : ∀ c, place = .signalCount c ∨ place = .signalUp c → 0 < count c)
    (willHand : (∃ c, place = .waitUpNext c) ∨ place = .leaveUpNext → 0 < nextCount) : Advances s token proc act := by
  refine ⟨_, token, called, local_inv s token inv proc place nextCount count here stays signalers waiters willSignal willHand,
    .went here (by simpa [goto] using stays) rfl, ?_⟩
  simp [goto]

theorem up_advances (act : Act C) (id : SemId C) (place : At C) (here : active (s.pc proc) = true) (leaves : active place = false)
    (upper : upAt (s.pc proc) = some id) (called : s.call proc act = s.upThen proc id place) (awake : ∀ other, place ≠ sleepAt other)
    (signaling' : signaling place = signaling (s.pc proc)) (waiting' : ∀ c, waitingOn c place = waitingOn c (s.pc proc))
    (taker : ∀ c, id = .cv c → (s.sems id).queue = [] → ∃ other, other ≠ proc ∧ s.pc other = .waitDown c)
    (takerNext : id = .next → (s.sems id).queue = [] → ∃ other, other ≠ proc ∧ s.pc other = .signalDown) : Advances s token proc act := by
  obtain ⟨next, token', upped, inv', moved, given⟩ := up_inv s token inv proc id place here leaves awake signaling' waiting' taker takerNext
  refine ⟨next, token', called.trans upped, inv', .up id upper given, ?_⟩
  rw [moved]
  simp

theorem down_advances (act : Act C) (id : SemId C) (here : s.pc proc = downAt id) (called : s.call proc act = .ok (s.downFrom proc id)) :
    Advances s token proc act := by
  obtain ⟨token', inv', ⟨free, taken, moved⟩ | ⟨blocked, kept, moved⟩⟩ := down_inv s token inv proc id here
  · exact ⟨s.downFrom proc id, token', called, inv', .took id here free taken (by simp [moved]), by simp [moved]⟩
  · exact ⟨s.downFrom proc id, token', called, inv', .slept id here kept (by simp [moved]), by simp [moved]⟩

theorem resume_advances (act : Act C) (id : SemId C) (here : s.pc proc = sleepAt id) (runs : (s.waits.procs proc).state = .runnable)
    (called : s.call proc act = s.resumeFrom proc id) : Advances s token proc act := by
  obtain ⟨next, resumed, inv', holds, moved⟩ := resume_inv s token inv proc id here runs
  exact ⟨next, token, called.trans resumed, inv', .resumed id here holds rfl (by simp [moved]), by simp [moved]⟩

theorem call_inv (act : Act C) (runs : (s.waits.procs proc).state = .runnable) : Advances s token proc act := by
  cases place : s.pc proc with
  | outside =>
      by_cases enters : act = .enter
      · exact down_advances s token inv proc act .mutex place (by simp [call, place, enters])
      · exact ⟨s, token, by simp [call, place, enters], inv, .idle rfl rfl, by simp⟩
  | enterSleep => exact resume_advances s token inv proc act .mutex place runs (by simp [call, place])
  | inside =>
      cases act with
      | enter => exact ⟨s, token, by simp [call, place], inv, .idle rfl rfl, by simp⟩
      | signal c =>
          by_cases waiter : 0 < s.count c
          · exact went_advances s token inv proc _ (.signalCount c) s.nextCount s.count (by rw [place]; rfl) rfl
              (by simp [call, place, waiter]) (by simp [place, signaling]) (by simp [place, waitingOn])
              (by rintro d (same | same) <;> simp at same; subst same; exact waiter) (by simp)
          · exact ⟨s, token, by simp [call, place, waiter], inv, .idle rfl rfl, by simp⟩
      | wait c =>
          exact went_advances s token inv proc _ (.waitCount c) s.nextCount s.count (by rw [place]; rfl) rfl (by simp [call, place])
            (by simp [place, signaling]) (by simp [place, waitingOn]) (by simp) (by simp)
      | leave =>
          exact went_advances s token inv proc _ .leaveTest s.nextCount s.count (by rw [place]; rfl) rfl (by simp [call, place])
            (by simp [place, signaling]) (by simp [place, waitingOn]) (by simp) (by simp)
  | signalCount c =>
      have waiter := inv.willSignal proc c (.inl place)
      exact went_advances s token inv proc act (.signalUp c) (s.nextCount + 1) s.count (by rw [place]; rfl) rfl (by simp [call, place])
        (by simp [place, signaling, indicator]) (by simp [place, waitingOn])
        (by rintro d (same | same) <;> simp at same; subst same; exact waiter) (by simp)
  | signalUp c =>
      have waiter := inv.willSignal proc c (.inr place)
      have here : active (s.pc proc) = true := by rw [place]; rfl
      refine up_advances s token inv proc act (.cv c) .signalDown here rfl (by rw [place]; rfl) (by simp [call, place])
        (fun other => by cases other <;> simp [sleepAt]) (by rw [place]; rfl) (fun d => by rw [place]; rfl) ?_ (by simp)
      intro d same empty
      obtain rfl := SemId.cv.inj same
      exact waiter_there s token inv proc c here (by rw [place]; rfl) waiter empty
  | signalDown => exact down_advances s token inv proc act .next place (by simp [call, place])
  | signalSleep => exact resume_advances s token inv proc act .next place runs (by simp [call, place])
  | signalUncount =>
      exact went_advances s token inv proc act .inside (s.nextCount - 1) s.count (by rw [place]; rfl) rfl (by simp [call, place])
        (by simp [place, signaling, indicator]) (by simp [place, waitingOn]) (by simp) (by simp)
  | waitCount c =>
      refine went_advances s token inv proc act (.waitTest c) s.nextCount _ (by rw [place]; rfl) rfl (by simp [call, place]; rfl)
        (by simp [place, signaling]) (fun d => ?_) (by simp) (by simp)
      by_cases same : d = c
      · subst same
        simp [place, waitingOn, indicator]
      · have apart : c ≠ d := fun equal => same equal.symm
        simp [place, waitingOn, indicator, same, apart]
  | waitTest c =>
      by_cases signaler : 0 < s.nextCount
      · exact went_advances s token inv proc act (.waitUpNext c) s.nextCount s.count (by rw [place]; rfl) rfl
          (by simp [call, place, signaler]) (by simp [place, signaling]) (by simp [place, waitingOn]) (by simp) (fun _ => signaler)
      · exact went_advances s token inv proc act (.waitUpMutex c) s.nextCount s.count (by rw [place]; rfl) rfl
          (by simp [call, place, signaler]) (by simp [place, signaling]) (by simp [place, waitingOn]) (by simp) (by simp)
  | waitUpNext c =>
      have here : active (s.pc proc) = true := by rw [place]; rfl
      refine up_advances s token inv proc act .next (.waitDown c) here rfl (by rw [place]; rfl) (by simp [call, place])
        (fun other => by cases other <;> simp [sleepAt]) (by rw [place]; rfl) (fun d => by rw [place]; rfl) (by simp) ?_
      intro _ empty
      exact signaler_there s token inv proc here (by rw [place]; rfl) (inv.willHand proc (.inl ⟨c, place⟩)) empty
  | waitUpMutex c =>
      exact up_advances s token inv proc act .mutex (.waitDown c) (by rw [place]; rfl) rfl (by rw [place]; rfl) (by simp [call, place])
        (fun other => by cases other <;> simp [sleepAt]) (by rw [place]; rfl) (fun d => by rw [place]; rfl) (by simp) (by simp)
  | waitDown c => exact down_advances s token inv proc act (.cv c) place (by simp [call, place])
  | waitSleep c => exact resume_advances s token inv proc act (.cv c) place runs (by simp [call, place])
  | waitUncount c =>
      refine went_advances s token inv proc act .inside s.nextCount _ (by rw [place]; rfl) rfl (by simp [call, place]; rfl)
        (by simp [place, signaling]) (fun d => ?_) (by simp) (by simp)
      by_cases same : d = c
      · subst same
        simp [place, waitingOn, indicator]
      · have apart : c ≠ d := fun equal => same equal.symm
        simp [place, waitingOn, indicator, same, apart]
  | leaveTest =>
      by_cases signaler : 0 < s.nextCount
      · exact went_advances s token inv proc act .leaveUpNext s.nextCount s.count (by rw [place]; rfl) rfl
          (by simp [call, place, signaler]) (by simp [place, signaling]) (by simp [place, waitingOn]) (by simp) (fun _ => signaler)
      · exact went_advances s token inv proc act .leaveUpMutex s.nextCount s.count (by rw [place]; rfl) rfl
          (by simp [call, place, signaler]) (by simp [place, signaling]) (by simp [place, waitingOn]) (by simp) (by simp)
  | leaveUpNext =>
      have here : active (s.pc proc) = true := by rw [place]; rfl
      refine up_advances s token inv proc act .next .outside here rfl (by rw [place]; rfl) (by simp [call, place])
        (fun other => by cases other <;> simp [sleepAt]) (by rw [place]; rfl) (fun d => by rw [place]; rfl) (by simp) ?_
      intro _ empty
      exact signaler_there s token inv proc here (by rw [place]; rfl) (inv.willHand proc (.inr place)) empty
  | leaveUpMutex =>
      exact up_advances s token inv proc act .mutex .outside (by rw [place]; rfl) rfl (by rw [place]; rfl) (by simp [call, place])
        (fun other => by cases other <;> simp [sleepAt]) (by rw [place]; rfl) (fun d => by rw [place]; rfl) (by simp) (by simp)

end Steps

-- The monitor is on its way to a waiter of the condition: in its semaphore, or
-- handed to a process that has not gone on yet.
def PassedTo (s : Monitor P C) (c : C) : Prop :=
  (s.sems (.cv c)).value = 1 ∨ ∃ wait, s.pc wait = .waitSleep c ∧ wait ∉ (s.sems (.cv c)).queue

theorem passed_token (s : Monitor P C) (token : Token P C) (inv : MonInv s token) (c : C) :
    s.PassedTo c ↔ token = .sem (.cv c) ∨ ∃ wait, token = .proc wait ∧ s.pc wait = .waitSleep c := by
  constructor
  · intro passed
    rcases passed with value | ⟨wait, asleep, outside⟩
    · left
      by_contra elsewhere
      have zero := inv.value (.cv c)
      rw [if_neg elsewhere, value] at zero
      exact absurd zero (by decide)
    · exact .inr ⟨wait, (inv.handed (.cv c) wait asleep outside).2, asleep⟩
  · intro has
    rcases has with inSem | ⟨wait, has, asleep⟩
    · left
      rw [inv.value, if_pos inSem]
    · right
      rcases inv.holder wait has with runs | ⟨id, asleep', outside⟩
      · rw [asleep] at runs
        exact absurd runs (by simp [active])
      · have same : sleepAt (.cv c) = sleepAt id := asleep.symm.trans asleep'
        obtain rfl := sleep_injective _ _ same
        exact ⟨wait, asleep, outside⟩

-- At most one process is active; next_count and the counts count the processes
-- between their two updates; a statement returns; cond_signal with a waiter does
-- not skip, its up passes the monitor on, and then nobody but a waiter of the
-- condition gets it.
structure MonitorSafe (s : Monitor P C) : Prop where
  exclusive : ∀ proc other, active (s.pc proc) = true → active (s.pc other) = true → proc = other
  signalers : s.nextCount = countAt signaling s.pc
  waiters : ∀ c, s.count c = countAt (waitingOn c) s.pc
  returns : ∀ proc act, (s.waits.procs proc).state = .runnable → (s.step (proc, act)).isSome
  signals : ∀ proc c wait next, s.pc proc = .inside → s.pc wait = .waitDown c ∨ s.pc wait = .waitSleep c →
    s.step (proc, .signal c) = some next → next.pc proc = .signalCount c
  passes : ∀ proc act c next, s.pc proc = .signalUp c → s.step (proc, act) = some next → next.PassedTo c
  idle : ∀ c, s.PassedTo c → ∀ proc, active (s.pc proc) = false
  first : ∀ c, s.PassedTo c → ∀ proc act next, s.step (proc, act) = some next →
    next.PassedTo c ∨ (s.pc proc = .waitDown c ∨ s.pc proc = .waitSleep c) ∧ next.pc proc = .waitUncount c

section Safe

variable (s : Monitor P C) (token : Token P C) (inv : MonInv s token)

include inv

theorem step_some (proc : P) (act : Act C) (next : Monitor P C) (taken : s.step (proc, act) = some next) :
    ∃ token', MonInv next token' ∧ Moved s token proc next token' ∧ next.pc = Function.update s.pc proc (next.pc proc) := by
  simp only [step] at taken
  split at taken
  case isFalse => simp at taken
  case isTrue runs =>
    obtain ⟨after, token', called, inv', moved, only⟩ := call_inv s token inv proc act runs
    rw [called] at taken
    obtain rfl := Option.some.inj taken
    exact ⟨token', inv', moved, only⟩

theorem passed_idle (c : C) (passed : s.PassedTo c) (proc : P) : active (s.pc proc) = false := by
  by_contra runs
  have has := inv.active proc (by simpa using runs)
  rcases (passed_token s token inv c).mp passed with inSem | ⟨wait, held, asleep⟩
  · rw [inSem] at has
    exact absurd has (by simp)
  · rw [held] at has
    obtain rfl := Token.proc.inj has
    rw [asleep] at runs
    exact runs rfl

theorem passed_first (c : C) (passed : s.PassedTo c) (proc : P) (act : Act C) (next : Monitor P C) (taken : s.step (proc, act) = some next) :
    next.PassedTo c ∨ (s.pc proc = .waitDown c ∨ s.pc proc = .waitSleep c) ∧ next.pc proc = .waitUncount c := by
  have idle := passed_idle s token inv c passed proc
  obtain ⟨token', inv', moved, only⟩ := step_some s token inv proc act next taken
  have stays : token' = token → s.pc proc ≠ .waitSleep c → next.PassedTo c := by
    intro kept elsewhere
    rw [passed_token next token' inv' c, kept]
    rcases (passed_token s token inv c).mp passed with inSem | ⟨wait, held, asleep⟩
    · exact .inl inSem
    · have apart : wait ≠ proc := by
        intro same
        exact elsewhere (same ▸ asleep)
      exact .inr ⟨wait, held, by rw [only, Function.update_of_ne apart, asleep]⟩
  cases moved with
  | idle state kept =>
      subst state
      exact .inl passed
  | went here _ _ =>
      rw [idle] at here
      exact absurd here (by simp)
  | up id here _ =>
      cases place : s.pc proc <;> rw [place] at here idle <;> simp [upAt, active] at here idle
  | took id here free _ there =>
      rcases (passed_token s token inv c).mp passed with inSem | ⟨wait, held, _⟩
      · have same : id = .cv c := by
          rw [free] at inSem
          exact Token.sem.inj inSem
        subst same
        exact .inr ⟨.inl here, there⟩
      · rw [free] at held
        exact absurd held (by simp)
  | slept id here kept _ =>
      refine .inl (stays kept fun asleep => ?_)
      exact down_sleep id (.cv c) (here.symm.trans asleep)
  | resumed id here holds _ there =>
      rcases (passed_token s token inv c).mp passed with inSem | ⟨wait, held, asleep⟩
      · rw [holds] at inSem
        exact absurd inSem (by simp)
      · rw [holds] at held
        obtain rfl := Token.proc.inj held
        have same : sleepAt (.cv c) = sleepAt id := asleep.symm.trans here
        obtain rfl := sleep_injective _ _ same
        exact .inr ⟨.inr asleep, there⟩

theorem signal_passes (proc : P) (act : Act C) (c : C) (next : Monitor P C) (here : s.pc proc = .signalUp c)
    (taken : s.step (proc, act) = some next) : next.PassedTo c := by
  have runs : (s.waits.procs proc).state = .runnable := by
    by_contra blocked
    simp [step, blocked] at taken
  have waiter := inv.willSignal proc c (.inr here)
  have active' : active (s.pc proc) = true := by rw [here]; rfl
  obtain ⟨after, token', upped, inv', moved, given⟩ := up_inv s token inv proc (.cv c) .signalDown active' rfl
    (fun other => by cases other <;> simp [sleepAt]) (by rw [here]; rfl) (fun d => by rw [here]; rfl)
    (fun d same empty => by
      obtain rfl := SemId.cv.inj same
      exact waiter_there s token inv proc c active' (by rw [here]; rfl) waiter empty) (by simp)
  have reached : after = next := by
    simpa [step, runs, call, here, upped] using taken
  subst reached
  rw [passed_token after token' inv' c]
  rcases given with inSem | ⟨wait, asleep, held⟩
  · exact .inl inSem
  · have apart : wait ≠ proc := by
      intro same
      rw [same, here] at asleep
      exact absurd asleep (by simp [sleepAt])
    exact .inr ⟨wait, held, by rw [moved, Function.update_of_ne apart]; exact asleep⟩

theorem inv_safe : MonitorSafe s where
  exclusive := by
    intro proc other runs runs'
    exact one_active s token inv other proc (inv.active other runs') runs
  signalers := inv.signalers
  waiters := inv.waiters
  returns := by
    intro proc act runs
    obtain ⟨next, _, called, _⟩ := call_inv s token inv proc act runs
    simp [step, runs, called]
  signals := by
    intro proc c wait next here waits taken
    have positive : 0 < s.count c := by
      rw [inv.waiters c, count_positive]
      refine ⟨wait, ?_⟩
      rcases waits with place | place <;> simp [place, waitingOn]
    have runs : (s.waits.procs proc).state = .runnable := by
      by_contra blocked
      simp [step, blocked] at taken
    simp only [step, runs, call, here, positive, if_true, Option.some.injEq] at taken
    simp [← taken, goto]
  passes := fun proc act c next here taken => signal_passes s token inv proc act c next here taken
  idle := fun c passed proc => passed_idle s token inv c passed proc
  first := fun c passed proc act next taken => passed_first s token inv c passed proc act next taken

end Safe

theorem boot_inv (waits : Waits P) (ready : ∀ proc, (waits.procs proc).state = .runnable) :
    MonInv (boot waits : Monitor P C) (.sem .mutex) where
  value := by
    intro id
    by_cases same : id = .mutex
    · simp [boot, same]
    · have apart : SemId.mutex ≠ id := fun equal => same equal.symm
      simp [boot, same, apart]
  drained := fun _ _ => rfl
  distinct := by simp [boot]
  queued := by simp [boot]
  runs := fun proc _ => ready proc
  handed := by
    intro id proc asleep
    cases id <;> simp [boot, sleepAt] at asleep
  active := by simp [boot, active]
  holder := by simp
  signalers := by simp [boot, countAt, signaling]
  waiters := by simp [boot, countAt, waitingOn]
  willSignal := by simp [boot]
  willHand := by simp [boot]
  taker := by simp
  takerNext := by simp

theorem run_inv (events : List (P × Act C)) (s final : Monitor P C) (start : ∃ token, MonInv s token)
    (ran : run step s events = some final) : ∃ token, MonInv final token := by
  refine run_invariant step (fun _ _ => True) (fun s => ∃ token, MonInv s token) ?_ events s final start
    (throughout_trivial _ _ (fun _ _ => trivial) events s) ran
  intro state event next held _ taken
  obtain ⟨token, inv⟩ := held
  obtain ⟨token', inv', _⟩ := step_some state token inv event.1 event.2 next taken
  exact ⟨token', inv'⟩

theorem hoare_monitor (waits : Waits P) (ready : ∀ proc, (waits.procs proc).state = .runnable) (events : List (P × Act C))
    (final : Monitor P C) (ran : run step (boot waits) events = some final) : MonitorSafe final := by
  obtain ⟨token, inv⟩ := run_inv events (boot waits) final ⟨_, boot_inv waits ready⟩ ran
  exact inv_safe final token inv

-- A waiter, a signaler that hands the monitor to it, and a newcomer that has to
-- wait meanwhile.
def monitorEvents : List (Fin 3 × Act Bool) :=
  [(0, .enter), (0, .wait true), (0, .enter), (0, .enter), (0, .enter), (0, .enter), (1, .enter), (1, .signal true), (1, .enter), (1, .enter),
    (2, .enter), (1, .enter), (0, .enter), (0, .enter), (0, .leave), (0, .enter), (0, .enter), (1, .enter), (1, .enter)]

theorem hoare_monitor_three : ∃ final : Monitor (Fin 3) Bool, run step (boot readyWaits) monitorEvents = some final ∧ MonitorSafe final := by
  have returns : (run step (boot readyWaits : Monitor (Fin 3) Bool) monitorEvents).isSome = true := by decide +kernel
  obtain ⟨final, ran⟩ := Option.isSome_iff_exists.mp returns
  exact ⟨final, ran, hoare_monitor readyWaits (fun _ => rfl) monitorEvents final ran⟩

end Monitor

end Ucore.Sync
