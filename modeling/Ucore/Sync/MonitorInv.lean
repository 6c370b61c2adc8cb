import Mathlib.Data.Fintype.Card
import Mathlib.Data.Finset.Card
import Ucore.Sync.Monitor
import Ucore.Sync.SemSafe

set_option autoImplicit false

namespace Ucore.Sync

open Ucore.Lib Ucore.Proc

-- Where the right to the monitor is: in a semaphore of value 1, or with a process.
inductive Token (P C : Type) where
  | sem (id : SemId C)
  | proc (proc : P)
deriving DecidableEq

namespace Monitor

variable {P C : Type} [DecidableEq P] [DecidableEq C]

section Places

omit [DecidableEq C] in
theorem sleep_active (id : SemId C) : active (sleepAt id) = false := by
  cases id <;> rfl

omit [DecidableEq C] in
theorem got_active (id : SemId C) : active (gotAt id) = true := by
  cases id <;> rfl

omit [DecidableEq C] in
theorem sleep_injective (id other : SemId C) (same : sleepAt id = sleepAt other) : id = other := by
  cases id <;> cases other <;> simp_all [sleepAt]

def downAt : SemId C → At C
  | .mutex => .outside
  | .next => .signalDown
  | .cv c => .waitDown c

omit [DecidableEq C] in
theorem down_active (id : SemId C) : active (downAt id) = false := by
  cases id <;> rfl

omit [DecidableEq C] in
theorem down_sleep (id other : SemId C) : downAt id ≠ sleepAt other := by
  cases id <;> cases other <;> simp [downAt, sleepAt]

omit [DecidableEq C] in
theorem down_signaling (id : SemId C) : signaling (downAt id) = signaling (sleepAt id) ∧ signaling (gotAt id) = signaling (sleepAt id) := by
  cases id <;> exact ⟨rfl, rfl⟩

theorem down_waiting (c : C) (id : SemId C) :
    waitingOn c (downAt id) = waitingOn c (sleepAt id) ∧ waitingOn c (gotAt id) = waitingOn c (sleepAt id) := by
  cases id <;> exact ⟨rfl, rfl⟩

end Places

variable [Fintype P]

def countAt (f : At C → Bool) (pc : P → At C) : Int := (Finset.univ.filter fun proc => f (pc proc) = true).card

def indicator (b : Bool) : Int := if b then 1 else 0

omit [DecidableEq C] in
theorem count_moved (f : At C → Bool) (pc : P → At C) (proc : P) (place : At C) :
    countAt f (Function.update pc proc place) = countAt f pc - indicator (f (pc proc)) + indicator (f place) := by
  have rest : ∀ g : P → At C, countAt f g =
      ((Finset.univ.erase proc).filter fun other => f (g other) = true).card + indicator (f (g proc)) := by
    intro g
    rw [countAt, ← Finset.insert_erase (Finset.mem_univ proc), Finset.filter_insert]
    by_cases here : f (g proc) = true
    · rw [if_pos here, Finset.card_insert_of_notMem (by simp), indicator, if_pos here]
      simp
    · rw [if_neg here, indicator, if_neg here]
      simp
  have same : ((Finset.univ.erase proc).filter fun other => f (Function.update pc proc place other) = true) =
      (Finset.univ.erase proc).filter fun other => f (pc other) = true := by
    refine Finset.filter_congr fun other inside => ?_
    rw [Function.update_of_ne (Finset.ne_of_mem_erase inside)]
  rw [rest (Function.update pc proc place), rest pc, same, Function.update_self]
  omega

omit [DecidableEq P] [DecidableEq C] in
theorem count_positive (f : At C → Bool) (pc : P → At C) : 0 < countAt f pc ↔ ∃ proc, f (pc proc) = true := by
  rw [countAt, Int.natCast_pos, Finset.card_pos]
  constructor
  · rintro ⟨proc, inside⟩
    exact ⟨proc, (Finset.mem_filter.mp inside).2⟩
  · rintro ⟨proc, here⟩
    exact ⟨proc, Finset.mem_filter.mpr ⟨Finset.mem_univ proc, here⟩⟩

-- The token is in exactly one place; who is in a queue sleeps there, and the
-- counters count the processes between their two updates.
structure MonInv (s : Monitor P C) (token : Token P C) : Prop where
  value : ∀ id, (s.sems id).value = if token = .sem id then 1 else 0
  drained : ∀ id, token = .sem id → (s.sems id).queue = []
  distinct : ∀ id, (s.sems id).queue.Nodup
  queued : ∀ id, ∀ proc ∈ (s.sems id).queue, s.pc proc = sleepAt id ∧ (s.waits.procs proc).state = .sleeping ∧
    (s.waits.procs proc).waitState = wtKsem
  runs : ∀ proc, (∀ id, proc ∉ (s.sems id).queue) → (s.waits.procs proc).state = .runnable
  handed : ∀ id proc, s.pc proc = sleepAt id → proc ∉ (s.sems id).queue → s.waits.wakeupFlags proc = wtKsem ∧ token = .proc proc
  active : ∀ proc, active (s.pc proc) = true → token = .proc proc
  holder : ∀ proc, token = .proc proc → Monitor.active (s.pc proc) = true ∨ ∃ id, s.pc proc = sleepAt id ∧ proc ∉ (s.sems id).queue
  signalers : s.nextCount = countAt signaling s.pc
  waiters : ∀ c, s.count c = countAt (waitingOn c) s.pc
  willSignal : ∀ proc c, s.pc proc = .signalCount c ∨ s.pc proc = .signalUp c → 0 < s.count c
  willHand : ∀ proc, (∃ c, s.pc proc = .waitUpNext c) ∨ s.pc proc = .leaveUpNext → 0 < s.nextCount
  taker : ∀ c, token = .sem (.cv c) → ∃ proc, s.pc proc = .waitDown c
  takerNext : token = .sem .next → ∃ proc, s.pc proc = .signalDown

variable (s : Monitor P C) (token : Token P C) (inv : MonInv s token) (proc : P)

include inv

theorem one_active (other : P) (here : token = .proc proc) (runs : active (s.pc other) = true) : other = proc := by
  have there := inv.active other runs
  rw [here] at there
  exact (Token.proc.inj there).symm

-- A statement of the process that has the monitor which moves it on and may
-- update a counter.
theorem local_inv (place : At C) (nextCount : Int) (count : C → Int) (here : active (s.pc proc) = true) (stays : active place = true)
    (signalers : nextCount = s.nextCount - indicator (signaling (s.pc proc)) + indicator (signaling place))
    (waiters : ∀ c, count c = s.count c - indicator (waitingOn c (s.pc proc)) + indicator (waitingOn c place))
    (willSignal : ∀ c, place = .signalCount c ∨ place = .signalUp c → 0 < count c)
    (willHand : (∃ c, place = .waitUpNext c) ∨ place = .leaveUpNext → 0 < nextCount) :
    MonInv ({ s with nextCount := nextCount, count := count }.goto proc place) token := by
  have holds := inv.active proc here
  have others : ∀ other, other ≠ proc → active (s.pc other) = false := by
    intro other apart
    by_contra runs
    exact apart (one_active s token inv proc other holds (by simpa using runs))
  have notAsleep : ∀ id, s.pc proc ≠ sleepAt id := by
    intro id same
    rw [same, sleep_active] at here
    exact absurd here (by simp)
  have placeAwake : ∀ id, place ≠ sleepAt id := by
    intro id same
    rw [same, sleep_active] at stays
    exact absurd stays (by simp)
  have unmoved : ∀ id other, Function.update s.pc proc place other = sleepAt id → s.pc other = sleepAt id ∧ other ≠ proc := by
    intro id other asleep
    by_cases same : other = proc
    · subst same
      rw [Function.update_self] at asleep
      exact absurd asleep (placeAwake id)
    · rw [Function.update_of_ne same] at asleep
      exact ⟨asleep, same⟩
  refine ⟨inv.value, inv.drained, inv.distinct, ?_, inv.runs, ?_, ?_, ?_, ?_, ?_, ?_, ?_, ?_, ?_⟩
  · intro id other inside
    obtain ⟨asleep, rest⟩ := inv.queued id other inside
    have apart : other ≠ proc := by
      rintro rfl
      exact notAsleep id asleep
    exact ⟨by simp [goto, apart, asleep], rest⟩
  · intro id other asleep outside
    exact inv.handed id other (unmoved id other asleep).1 outside
  · intro other runs
    by_cases same : other = proc
    · rw [same]
      exact holds
    · simp only [goto, Function.update_of_ne same] at runs
      rw [others other same] at runs
      exact absurd runs (by simp)
  · intro other has
    have same : other = proc := by
      rw [holds] at has
      exact (Token.proc.inj has).symm
    subst same
    exact .inl (by simpa [goto] using stays)
  · show nextCount = countAt signaling (Function.update s.pc proc place)
    rw [count_moved, ← inv.signalers]
    exact signalers
  · intro c
    show count c = countAt (waitingOn c) (Function.update s.pc proc place)
    rw [count_moved, ← inv.waiters c]
    exact waiters c
  · intro other c at'
    by_cases same : other = proc
    · subst same
      exact willSignal c (by simpa [goto] using at')
    · simp only [goto, Function.update_of_ne same] at at'
      have runs := others other same
      rcases at' with at' | at' <;> rw [at'] at runs <;> exact absurd runs (by simp [Monitor.active])
  · intro other at'
    by_cases same : other = proc
    · subst same
      exact willHand (by simpa [goto] using at')
    · simp only [goto, Function.update_of_ne same] at at'
      have runs := others other same
      rcases at' with ⟨c, at'⟩ | at' <;> rw [at'] at runs <;> exact absurd runs (by simp [Monitor.active])
  · intro c has
    rw [holds] at has
    exact absurd has (by simp)
  · intro has
    rw [holds] at has
    exact absurd has (by simp)

-- A process moves from one place to another that counts the same.
theorem moved_counts (place : At C)
    (signaling' : signaling place = signaling (s.pc proc)) (waiting' : ∀ c, waitingOn c place = waitingOn c (s.pc proc)) :
    s.nextCount = countAt signaling (Function.update s.pc proc place) ∧
      ∀ c, s.count c = countAt (waitingOn c) (Function.update s.pc proc place) := by
  refine ⟨?_, fun c => ?_⟩
  · rw [count_moved, signaling', inv.signalers]
    omega
  · rw [count_moved, waiting' c, inv.waiters c]
    omega

-- up by the process that has the monitor: the token goes to the first waiter, or
-- into the semaphore.
theorem up_inv (id : SemId C) (place : At C) (here : active (s.pc proc) = true) (leaves : active place = false)
    (awake : ∀ other, place ≠ sleepAt other) (signaling' : signaling place = signaling (s.pc proc))
    (waiting' : ∀ c, waitingOn c place = waitingOn c (s.pc proc))
    (taker : ∀ c, id = .cv c → (s.sems id).queue = [] → ∃ other, other ≠ proc ∧ s.pc other = .waitDown c)
    (takerNext : id = .next → (s.sems id).queue = [] → ∃ other, other ≠ proc ∧ s.pc other = .signalDown) :
    ∃ next token', s.upThen proc id place = .ok next ∧ MonInv next token' ∧ next.pc = Function.update s.pc proc place ∧
      (token' = .sem id ∨ ∃ wait, s.pc wait = sleepAt id ∧ token' = .proc wait) := by
  have holds := inv.active proc here
  have others : ∀ other, other ≠ proc → active (s.pc other) = false := by
    intro other apart
    by_contra runs
    exact apart (one_active s token inv proc other holds (by simpa using runs))
  have inNone : ∀ other, proc ∉ (s.sems other).queue := by
    intro other inside
    have asleep := (inv.queued other proc inside).1
    rw [asleep, sleep_active] at here
    exact absurd here (by simp)
  have noSem : ∀ other, token ≠ .sem other := by
    intro other same
    rw [holds] at same
    exact absurd same (by simp)
  have quiet : ∀ other, active (Function.update s.pc proc place other) = false := by
    intro other
    by_cases same : other = proc
    · subst same
      simpa using leaves
    · rw [Function.update_of_ne same]
      exact others other same
  obtain ⟨signalers, waiters⟩ := moved_counts s token inv proc place signaling' waiting'
  have willSignal : ∀ other c, Function.update s.pc proc place other = .signalCount c ∨ Function.update s.pc proc place other = .signalUp c →
      0 < s.count c := by
    intro other c at'
    have still := quiet other
    rcases at' with at' | at' <;> rw [at'] at still <;> exact absurd still (by simp [Monitor.active])
  have willHand : ∀ other, (∃ c, Function.update s.pc proc place other = .waitUpNext c) ∨ Function.update s.pc proc place other = .leaveUpNext →
      0 < s.nextCount := by
    intro other at'
    have still := quiet other
    rcases at' with ⟨c, at'⟩ | at' <;> rw [at'] at still <;> exact absurd still (by simp [Monitor.active])
  have unmoved : ∀ other asleepAt, Function.update s.pc proc place other = sleepAt asleepAt → other ≠ proc ∧ s.pc other = sleepAt asleepAt := by
    intro other asleepAt asleep
    by_cases same : other = proc
    · subst same
      rw [Function.update_self] at asleep
      exact absurd asleep (awake asleepAt)
    · rw [Function.update_of_ne same] at asleep
      exact ⟨same, asleep⟩
  cases queue : (s.sems id).queue with
  | nil =>
      have upped := Semaphore.up_empty (s.sems id) s.waits queue
      refine ⟨({ s.setSem id { s.sems id with value := (s.sems id).value + 1 } with waits := s.waits }).goto proc place, .sem id, ?_, ?_, rfl,
        .inl rfl⟩
      · rw [upThen, upped]
        rfl
      · refine ⟨?_, ?_, ?_, ?_, ?_, ?_, ?_, ?_, signalers, waiters, willSignal, willHand, ?_, ?_⟩
        · intro other
          have zero := inv.value other
          rw [if_neg (noSem other)] at zero
          by_cases same : other = id
          · subst same
            simp [goto, setSem, zero]
          · have apart : id ≠ other := fun equal => same equal.symm
            simp [goto, setSem, same, apart, zero]
        · intro other same
          obtain rfl := Token.sem.inj same
          simpa [goto, setSem] using queue
        · intro other
          by_cases same : other = id
          · subst same
            simpa [goto, setSem] using inv.distinct other
          · simpa [goto, setSem, same] using inv.distinct other
        · intro other wait inside
          have before : wait ∈ (s.sems other).queue := by
            by_cases same : other = id
            · subst same
              simpa [goto, setSem] using inside
            · simpa [goto, setSem, same] using inside
          have apart : wait ≠ proc := by
            rintro rfl
            exact inNone other before
          simpa [goto, setSem, apart] using inv.queued other wait before
        · intro other outside
          refine inv.runs other fun sem inside => outside sem ?_
          by_cases same : sem = id
          · subst same
            simpa [goto, setSem] using inside
          · simpa [goto, setSem, same] using inside
        · intro other wait asleep outside
          obtain ⟨apart, before⟩ := unmoved wait other asleep
          have notIn : wait ∉ (s.sems other).queue := by
            intro inside
            apply outside
            by_cases same : other = id
            · subst same
              simpa [goto, setSem] using inside
            · simpa [goto, setSem, same] using inside
          have has := (inv.handed other wait before notIn).2
          rw [holds] at has
          exact absurd (Token.proc.inj has).symm apart
        · intro other runs
          have moving : active (Function.update s.pc proc place other) = true := runs
          rw [quiet other] at moving
          exact absurd moving (by simp)
        · intro other has
          exact absurd has (by simp)
        · intro c same
          obtain ⟨other, apart, at'⟩ := taker c (Token.sem.inj same) queue
          exact ⟨other, by simp [goto, setSem, apart, at']⟩
        · intro same
          obtain ⟨other, apart, at'⟩ := takerNext (Token.sem.inj same) queue
          exact ⟨other, by simp [goto, setSem, apart, at']⟩
  | cons wait rest =>
      obtain ⟨asleep, state, waitState⟩ := inv.queued id wait (by simp [queue])
      have upped := Semaphore.up_waiter (s.sems id) s.waits wait rest queue state waitState
      have distinct := inv.distinct id
      rw [queue] at distinct
      obtain ⟨away, distinctRest⟩ := List.nodup_cons.mp distinct
      have apart : wait ≠ proc := by
        rintro rfl
        exact inNone id (by simp [queue])
      have onlyHere : ∀ other, wait ∈ (s.sems other).queue → other = id := by
        intro other inside
        exact sleep_injective other id ((inv.queued other wait inside).1.symm.trans asleep)
      generalize woken : (⟨s.waits.procs.set wait { s.waits.procs wait with state := .runnable, waitState := 0 },
        Function.update s.waits.wakeupFlags wait wtKsem⟩ : Waits P) = waits' at upped
      have rested : ∀ other waiting, waiting ∈ (Function.update s.sems id ⟨(s.sems id).value, rest⟩ other).queue →
          waiting ≠ wait ∧ waiting ∈ (s.sems other).queue := by
        intro other waiting inside
        by_cases same : other = id
        · subst same
          rw [Function.update_self] at inside
          exact ⟨fun equal => away (equal ▸ inside), by simp [queue, show waiting ∈ rest from inside]⟩
        · rw [Function.update_of_ne same] at inside
          exact ⟨fun equal => same (onlyHere other (equal ▸ inside)), inside⟩
      refine ⟨({ s.setSem id ⟨(s.sems id).value, rest⟩ with waits := waits' }).goto proc place, .proc wait, ?_, ?_, rfl,
        .inr ⟨wait, asleep, rfl⟩⟩
      · rw [upThen, upped]
        rfl
      · refine ⟨?_, ?_, ?_, ?_, ?_, ?_, ?_, ?_, signalers, waiters, willSignal, willHand, ?_, ?_⟩
        · intro other
          have zero := inv.value other
          rw [if_neg (noSem other)] at zero
          by_cases same : other = id
          · subst same
            simp [goto, setSem, zero]
          · simp [goto, setSem, same, zero]
        · intro other same
          exact absurd same (by simp)
        · intro other
          by_cases same : other = id
          · subst same
            simpa [goto, setSem] using distinctRest
          · simpa [goto, setSem, same] using inv.distinct other
        · intro other waiting inside
          obtain ⟨notWait, before⟩ := rested other waiting inside
          have notProc : waiting ≠ proc := by
            rintro rfl
            exact inNone other before
          simpa [goto, setSem, notProc, notWait, ← woken] using inv.queued other waiting before
        · intro other outside
          by_cases same : other = wait
          · subst same
            simp [goto, ← woken]
          · have runs : (s.waits.procs other).state = .runnable := by
              refine inv.runs other fun sem inside => outside sem ?_
              by_cases equal : sem = id
              · subst equal
                rw [queue] at inside
                simpa [goto, setSem] using (List.mem_cons.mp inside).resolve_left same
              · simpa [goto, setSem, equal] using inside
            simpa [goto, same, ← woken] using runs
        · intro other waiting asleep' outside
          obtain ⟨notProc, before⟩ := unmoved waiting other asleep'
          by_cases same : waiting = wait
          · subst same
            simp [goto, ← woken]
          · have notIn : waiting ∉ (s.sems other).queue := by
              intro inside
              apply outside
              by_cases equal : other = id
              · subst equal
                rw [queue] at inside
                simpa [goto, setSem] using (List.mem_cons.mp inside).resolve_left same
              · simpa [goto, setSem, equal] using inside
            have has := (inv.handed other waiting before notIn).2
            rw [holds] at has
            exact absurd (Token.proc.inj has).symm notProc
        · intro other runs
          have moving : active (Function.update s.pc proc place other) = true := runs
          rw [quiet other] at moving
          exact absurd moving (by simp)
        · intro other has
          obtain rfl := Token.proc.inj has
          refine .inr ⟨id, by simp [goto, setSem, apart, asleep], fun inside => ?_⟩
          exact (rested id wait inside).1 rfl
        · intro c has
          exact absurd has (by simp)
        · intro has
          exact absurd has (by simp)

-- down by a process outside: it takes the token from the semaphore, or sleeps in
-- its queue.
theorem down_inv (id : SemId C) (here : s.pc proc = downAt id) : ∃ token', MonInv (s.downFrom proc id) token' ∧
    ((token = .sem id ∧ token' = .proc proc ∧ (s.downFrom proc id).pc = Function.update s.pc proc (gotAt id)) ∨
      (token ≠ .sem id ∧ token' = token ∧ (s.downFrom proc id).pc = Function.update s.pc proc (sleepAt id))) := by
  have idle : active (s.pc proc) = false := by rw [here, down_active]
  have inNone : ∀ other, proc ∉ (s.sems other).queue := by
    intro other inside
    exact down_sleep id other (here.symm.trans (inv.queued other proc inside).1)
  have notHolder : token ≠ .proc proc := by
    intro has
    rcases inv.holder proc has with runs | ⟨other, asleep, _⟩
    · rw [idle] at runs
      exact absurd runs (by simp)
    · exact down_sleep id other (here.symm.trans asleep)
  have valueInt : ∀ other, 0 < (s.sems other).value.toInt ↔ token = .sem other := by
    intro other
    rw [inv.value other]
    by_cases same : token = .sem other
    · simp [same]
    · simp [same]
  have counts : ∀ place, signaling place = signaling (downAt id) → (∀ c, waitingOn c place = waitingOn c (downAt id)) →
      s.nextCount = countAt signaling (Function.update s.pc proc place) ∧
        ∀ c, s.count c = countAt (waitingOn c) (Function.update s.pc proc place) := fun place first second =>
    moved_counts s token inv proc place (by rw [here, first]) fun c => by rw [here, second]
  by_cases free : token = .sem id
  · have taken := Semaphore.down_free (s.sems id) s.waits proc ((valueInt id).mpr free)
    have result : s.downFrom proc id =
        ({ s.setSem id { s.sems id with value := (s.sems id).value - 1 } with waits := s.waits }).goto proc (gotAt id) := by
      rw [downFrom, taken]
    have sleeping : ∀ other waiting, Function.update s.pc proc (gotAt id) waiting = sleepAt other → waiting ≠ proc ∧ s.pc waiting = sleepAt other := by
      intro other waiting asleep
      by_cases same : waiting = proc
      · subst same
        rw [Function.update_self] at asleep
        have runs := got_active id
        rw [asleep, sleep_active] at runs
        exact absurd runs (by simp)
      · rw [Function.update_of_ne same] at asleep
        exact ⟨same, asleep⟩
    have others : ∀ other, other ≠ proc → active (s.pc other) = false := by
      intro other apart
      by_contra runs
      have has := inv.active other (by simpa using runs)
      rw [free] at has
      exact absurd has (by simp)
    have queues : ∀ other, (Function.update s.sems id { s.sems id with value := (s.sems id).value - 1 } other).queue = (s.sems other).queue := by
      intro other
      by_cases same : other = id
      · subst same
        simp
      · simp [same]
    obtain ⟨signalers, waiters⟩ := counts (gotAt id) (by rw [(down_signaling id).1, (down_signaling id).2]) fun c => by
      rw [(down_waiting c id).1, (down_waiting c id).2]
    refine ⟨.proc proc, ?_, .inl ⟨free, rfl, by rw [result]; rfl⟩⟩
    rw [result]
    refine ⟨?_, ?_, ?_, ?_, ?_, ?_, ?_, ?_, signalers, waiters, ?_, ?_, ?_, ?_⟩
    · intro other
      have before := inv.value other
      by_cases same : other = id
      · subst same
        rw [if_pos free] at before
        simp [goto, setSem, before]
      · have apart : token ≠ .sem other := by
          rw [free]
          exact fun equal => same (Token.sem.inj equal).symm
        rw [if_neg apart] at before
        simp [goto, setSem, same, before]
    · intro other has
      exact absurd has (by simp)
    · intro other
      show (Function.update s.sems id _ other).queue.Nodup
      rw [queues]
      exact inv.distinct other
    · intro other waiting inside
      have before : waiting ∈ (s.sems other).queue := by
        rw [← queues]
        exact inside
      have apart : waiting ≠ proc := by
        rintro rfl
        exact inNone other before
      simpa [goto, setSem, apart] using inv.queued other waiting before
    · intro other outside
      refine inv.runs other fun sem inside => outside sem ?_
      rw [← queues] at inside
      exact inside
    · intro other waiting asleep outside
      obtain ⟨_, before⟩ := sleeping other waiting asleep
      have notIn : waiting ∉ (s.sems other).queue := by
        intro inside
        rw [← queues] at inside
        exact outside inside
      have has := (inv.handed other waiting before notIn).2
      rw [free] at has
      exact absurd has (by simp)
    · intro other runs
      by_cases same : other = proc
      · rw [same]
      · have moving : active (Function.update s.pc proc (gotAt id) other) = true := runs
        rw [Function.update_of_ne same, others other same] at moving
        exact absurd moving (by simp)
    · intro other has
      obtain rfl := Token.proc.inj has
      exact .inl (by simpa [goto] using got_active id)
    · intro other c at'
      have moving : Function.update s.pc proc (gotAt id) other = .signalCount c ∨ Function.update s.pc proc (gotAt id) other = .signalUp c := at'
      by_cases same : other = proc
      · subst same
        rw [Function.update_self] at moving
        cases id <;> simp [gotAt] at moving
      · rw [Function.update_of_ne same] at moving
        exact inv.willSignal other c moving
    · intro other at'
      have moving : (∃ c, Function.update s.pc proc (gotAt id) other = .waitUpNext c) ∨
          Function.update s.pc proc (gotAt id) other = .leaveUpNext := at'
      by_cases same : other = proc
      · subst same
        rw [Function.update_self] at moving
        cases id <;> simp [gotAt] at moving
      · rw [Function.update_of_ne same] at moving
        exact inv.willHand other moving
    · intro c has
      exact absurd has (by simp)
    · intro has
      exact absurd has (by simp)
  · have blocked := Semaphore.down_taken (s.sems id) s.waits proc (fun positive => free ((valueInt id).mp positive))
    generalize slept : (⟨s.waits.procs.set proc { s.waits.procs proc with state := .sleeping, waitState := wtKsem },
      Function.update s.waits.wakeupFlags proc wtInterrupted⟩ : Waits P) = waits' at blocked
    have result : s.downFrom proc id =
        ({ s.setSem id { s.sems id with queue := (s.sems id).queue ++ [proc] } with waits := waits' }).goto proc (sleepAt id) := by
      rw [downFrom, blocked]
    have queues : ∀ other waiting, waiting ∈ (Function.update s.sems id { s.sems id with queue := (s.sems id).queue ++ [proc] } other).queue ↔
        waiting ∈ (s.sems other).queue ∨ other = id ∧ waiting = proc := by
      intro other waiting
      by_cases same : other = id
      · subst same
        simp
      · simp [same]
    obtain ⟨signalers, waiters⟩ := counts (sleepAt id) (down_signaling id).1.symm fun c => (down_waiting c id).1.symm
    have moved : ∀ other, other ≠ proc → Function.update s.pc proc (sleepAt id) other = s.pc other := fun other apart =>
      Function.update_of_ne apart _ _
    refine ⟨token, ?_, .inr ⟨free, rfl, by rw [result]; rfl⟩⟩
    rw [result]
    refine ⟨?_, ?_, ?_, ?_, ?_, ?_, ?_, ?_, signalers, waiters, ?_, ?_, ?_, ?_⟩
    · intro other
      have before := inv.value other
      by_cases same : other = id
      · subst same
        simpa [goto, setSem] using before
      · simpa [goto, setSem, same] using before
    · intro other has
      have apart : other ≠ id := by
        rintro rfl
        exact free has
      simpa [goto, setSem, apart] using inv.drained other has
    · intro other
      by_cases same : other = id
      · subst same
        have distinct : ((s.sems other).queue ++ [proc]).Nodup := List.nodup_append.mpr ⟨inv.distinct other, by simp, by
          intro waiting inside last atEnd equal
          rw [List.mem_singleton.mp atEnd] at equal
          exact inNone other (equal ▸ inside)⟩
        simpa [goto, setSem] using distinct
      · simpa [goto, setSem, same] using inv.distinct other
    · intro other waiting inside
      rcases (queues other waiting).mp inside with before | ⟨rfl, rfl⟩
      · have apart : waiting ≠ proc := by
          rintro rfl
          exact inNone other before
        simpa [goto, setSem, apart, ← slept] using inv.queued other waiting before
      · simp [goto, setSem, ← slept]
    · intro other outside
      have apart : other ≠ proc := by
        rintro rfl
        exact outside id ((queues id other).mpr (.inr ⟨rfl, rfl⟩))
      have runs := inv.runs other fun sem inside => outside sem ((queues sem other).mpr (.inl inside))
      simpa [goto, apart, ← slept] using runs
    · intro other waiting asleep outside
      have apart : waiting ≠ proc := by
        rintro rfl
        have asleep' : Function.update s.pc waiting (sleepAt id) waiting = sleepAt other := asleep
        rw [Function.update_self] at asleep'
        obtain rfl := sleep_injective id other asleep'
        exact outside ((queues id waiting).mpr (.inr ⟨rfl, rfl⟩))
      have before := inv.handed other waiting ((moved waiting apart).symm.trans asleep) fun inside =>
        outside ((queues other waiting).mpr (.inl inside))
      simpa [goto, apart, ← slept] using before
    · intro other runs
      have apart : other ≠ proc := by
        rintro rfl
        have moving : active (Function.update s.pc other (sleepAt id) other) = true := runs
        rw [Function.update_self, sleep_active] at moving
        exact absurd moving (by simp)
      exact inv.active other (by rw [← moved other apart]; exact runs)
    · intro other has
      have apart : other ≠ proc := by
        rintro rfl
        exact notHolder has
      rcases inv.holder other has with runs | ⟨sem, asleep, outside⟩
      · exact .inl (by simpa [goto, setSem, apart] using runs)
      · refine .inr ⟨sem, by simpa [goto, setSem, apart] using asleep, fun inside => ?_⟩
        rcases (queues sem other).mp inside with before | ⟨_, same⟩
        · exact outside before
        · exact apart same
    · intro other c at'
      have moving : Function.update s.pc proc (sleepAt id) other = .signalCount c ∨ Function.update s.pc proc (sleepAt id) other = .signalUp c := at'
      by_cases same : other = proc
      · subst same
        rw [Function.update_self] at moving
        cases id <;> simp [sleepAt] at moving
      · rw [moved other same] at moving
        exact inv.willSignal other c moving
    · intro other at'
      have moving : (∃ c, Function.update s.pc proc (sleepAt id) other = .waitUpNext c) ∨
          Function.update s.pc proc (sleepAt id) other = .leaveUpNext := at'
      by_cases same : other = proc
      · subst same
        rw [Function.update_self] at moving
        cases id <;> simp [sleepAt] at moving
      · rw [moved other same] at moving
        exact inv.willHand other moving
    · intro c has
      obtain ⟨other, at'⟩ := inv.taker c has
      have apart : other ≠ proc := by
        rintro rfl
        have same : downAt id = .waitDown c := here.symm.trans at'
        cases id <;> simp [downAt] at same
        exact free (same ▸ has)
      exact ⟨other, by simp [goto, setSem, apart, at']⟩
    · intro has
      obtain ⟨other, at'⟩ := inv.takerNext has
      have apart : other ≠ proc := by
        rintro rfl
        have same : downAt id = .signalDown := here.symm.trans at'
        cases id <;> simp [downAt] at same
        exact free has
      exact ⟨other, by simp [goto, setSem, apart, at']⟩

end Monitor

end Ucore.Sync
