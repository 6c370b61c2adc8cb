import Ucore.Sync.DiningCondvar
import Ucore.Sync.DiningSemaInv
import Ucore.Sync.MonitorSafe

set_option autoImplicit false

namespace Ucore.Sync

open Ucore.Lib Ucore.Proc

namespace DiningCondvar

variable {P : Type} [DecidableEq P]

-- Which jobs a philosopher can have at a place of the monitor.
def Fits (i : P) (job : Job CondWait) : At P → Prop
  | .outside | .leaveTest | .leaveUpNext | .leaveUpMutex => job = .thinking ∨ job = .eating
  | .enterSleep => job = .hunger ∨ job = .putting
  | .inside => job ≠ .thinking ∧ job ≠ .eating
  | .signalCount _ | .signalUp _ | .signalDown | .signalSleep | .signalUncount => ∃ turn, job = Table.after .check turn
  | .waitCount c | .waitTest c | .waitUpNext c | .waitUpMutex c | .waitDown c | .waitSleep c | .waitUncount c => c = i ∧ job = .waits .leave

-- A philosopher that is signaled eats, and so does one that goes on after cond_wait.
structure CondInv [Fintype P] (seats : Seats P) (s : DiningCondvar P) (token : Token P P) : Prop where
  monitor : Monitor.MonInv s.monitor token
  table : Table.DiningInv seats s.table
  fits : ∀ i, Fits i (s.table.job i) (s.monitor.pc i)
  granted : ∀ i turn, s.table.job i = .test .signal turn → s.table.state (Table.target seats i turn) = .eating
  signaled : ∀ i c, s.monitor.pc i = .signalCount c ∨ s.monitor.pc i = .signalUp c → s.table.state c = .eating
  free : ∀ c, token = .sem (.cv c) → s.table.state c = .eating
  handed : ∀ i c, token = .proc i → s.monitor.pc i = .waitSleep c → s.table.state c = .eating
  woken : ∀ i c, s.monitor.pc i = .waitUncount c → s.table.state c = .eating
  settled : ∀ i, s.monitor.pc i = .inside → s.table.job i = .waits .leave → s.table.state i = .eating

section Places

variable (s next : Monitor P P) (i : P)

theorem up_place (id : SemId P) (place : At P) (upped : s.upThen i id place = .ok next) : next.pc i = place := by
  rw [Monitor.upThen] at upped
  cases up : (s.sems id).up s.waits with
  | error fault => simp [up, Bind.bind, Except.bind] at upped
  | ok result =>
      obtain ⟨woken, sem, waits⟩ := result
      rw [up, ok_bind] at upped
      obtain rfl := Except.ok.inj upped
      simp [Monitor.goto]

theorem resume_place (id : SemId P) (resumed : s.resumeFrom i id = .ok next) : next.pc i = Monitor.gotAt id := by
  rw [Monitor.resumeFrom] at resumed
  cases down : (s.sems id).downResumed s.waits i with
  | error fault => simp [down, Bind.bind, Except.bind] at resumed
  | ok sem =>
      rw [down, ok_bind, pure_ok] at resumed
      obtain rfl := Except.ok.inj resumed
      simp [Monitor.goto]

theorem down_place (id : SemId P) : (s.downFrom i id).pc i = Monitor.gotAt id ∨ (s.downFrom i id).pc i = Monitor.sleepAt id := by
  by_cases free : 0 < (s.sems id).value.toInt
  · rw [Monitor.downFrom, Semaphore.down_free _ _ i free]
    simp [Monitor.goto]
  · rw [Monitor.downFrom, Semaphore.down_taken _ _ i free]
    simp [Monitor.goto]

omit [DecidableEq P] in
theorem up_at_signal (place : At P) (c : P) (here : Monitor.upAt place = some (.cv c)) : place = .signalUp c := by
  cases place with
  | signalUp d =>
      simp only [Monitor.upAt, Option.some.injEq, SemId.cv.injEq] at here
      rw [here]
  | _ => simp [Monitor.upAt] at here

omit [DecidableEq P] in
theorem up_at_active (place : At P) (id : SemId P) (here : Monitor.upAt place = some id) : Monitor.active place = true := by
  cases place <;> first | rfl | simp [Monitor.upAt] at here

end Places

section Steps

variable [Fintype P] (seats : Seats P) (s : DiningCondvar P) (token : Token P P) (inv : CondInv seats s token) (i : P)

include inv

theorem alone (here : Monitor.active (s.monitor.pc i) = true) (other : P) (apart : other ≠ i) : Monitor.active (s.monitor.pc other) = false := by
  by_contra there
  exact apart (Monitor.one_active s.monitor token inv.monitor i other (inv.monitor.active i here) (by simpa using there))

-- A job between state[i] = HUNGRY or THINKING and the way out, at the place where
-- the monitor is left to the philosopher.
theorem test_place (place : TestAt) (turn : Turn) (here : s.table.job i = .test place turn) (later : place ≠ .own) :
    s.monitor.pc i = .inside := by
  have fits := inv.fits i
  rw [here] at fits
  have notAfter : ∀ turn', (.test place turn : Job CondWait) ≠ Table.after .check turn' := by
    intro turn' same
    cases turn' with
    | take => simp [Table.after] at same
    | putLeft =>
        simp only [Table.after, Job.test.injEq] at same
        exact later same.1
    | putRight => simp [Table.after] at same
  cases at' : s.monitor.pc i with
  | inside => rfl
  | _ => simp [at', Fits, notAfter] at fits

theorem alone_tests (here : s.monitor.pc i = .inside) (other : P) (apart : other ≠ i) : Table.testing (s.table.job other) = false := by
  have idle := alone seats s token inv i (by rw [here]; rfl) other apart
  cases job : s.table.job other with
  | test place turn =>
      cases place with
      | own => rfl
      | signal => rfl
      | _ =>
          rw [test_place seats s token inv other _ turn job (by simp)] at idle
          exact absurd idle (by simp [Monitor.active])
  | _ => rfl

-- A statement of the philosopher's own, inside the monitor.
theorem statement_inv (table' : Table P CondWait) (here : s.monitor.pc i = .inside)
    (jobs : ∀ other, other ≠ i → table'.job other = s.table.job other) (table : Table.DiningInv seats table')
    (fits : table'.job i ≠ .thinking ∧ table'.job i ≠ .eating)
    (granted : ∀ turn, table'.job i = .test .signal turn → table'.state (Table.target seats i turn) = .eating)
    (settled : table'.job i = .waits .leave → table'.state i = .eating) : CondInv seats { s with table := table' } token := by
  have active : Monitor.active (s.monitor.pc i) = true := by rw [here]; rfl
  have holds := inv.monitor.active i active
  have only : ∀ other, Monitor.active (s.monitor.pc other) = true → other = i := fun other there =>
    Monitor.one_active s.monitor token inv.monitor i other holds there
  refine ⟨inv.monitor, table, ?_, ?_, ?_, ?_, ?_, ?_, ?_⟩
  · intro other
    by_cases same : other = i
    · subst same
      rw [here]
      exact fits
    · rw [jobs other same]
      exact inv.fits other
  · intro other turn up
    by_cases same : other = i
    · subst same
      exact granted turn up
    · rw [jobs other same] at up
      have there := test_place seats s token inv other .signal turn up (by simp)
      exact absurd (only other (by rw [there]; rfl)) same
  · intro other c at'
    have same := only other (by rcases at' with at' | at' <;> rw [at'] <;> rfl)
    rw [same, here] at at'
    simp at at'
  · intro c has
    rw [holds] at has
    exact absurd has (by simp)
  · intro other c has at'
    rw [holds] at has
    rw [← Token.proc.inj has, here] at at'
    exact absurd at' (by simp)
  · intro other c at'
    have same := only other (by rw [at']; rfl)
    rw [same, here] at at'
    exact absurd at' (by simp)
  · intro other at' leaves
    have same := only other (by rw [at']; rfl)
    subst same
    exact settled leaves

-- A step of the monitor: it takes a philosopher to cond_wait's end only when that
-- was signaled, and passes the monitor on only to one that eats.
theorem monitor_inv (next : Monitor P P) (token' : Token P P) (table' : Table P CondWait) (monitor : Monitor.MonInv next token')
    (moved : Monitor.Moved s.monitor token i next token') (only : next.pc = Function.update s.monitor.pc i (next.pc i))
    (table : Table.DiningInv seats table') (states : table'.state = s.table.state) (jobs : ∀ other, other ≠ i → table'.job other = s.table.job other)
    (fits : Fits i (table'.job i) (next.pc i)) (granted : ∀ turn, table'.job i ≠ .test .signal turn)
    (signaled : ∀ c, next.pc i = .signalCount c ∨ next.pc i = .signalUp c → s.table.state c = .eating)
    (woken : ∀ c, next.pc i = .waitUncount c → Monitor.active (s.monitor.pc i) = false)
    (settled : next.pc i = .inside → table'.job i = .waits .leave → s.table.state i = .eating) : CondInv seats ⟨next, table'⟩ token' := by
  have kept : ∀ other, other ≠ i → next.pc other = s.monitor.pc other := by
    intro other apart
    rw [only, Function.update_of_ne apart]
  -- The token where it was, and what the up of a signaler does with it.
  have upSem : ∀ id c, Monitor.upAt (s.monitor.pc i) = some id → id = .cv c → s.table.state c = .eating := by
    intro id c here same
    subst same
    exact inv.signaled i c (.inr (up_at_signal _ c here))
  refine ⟨monitor, table, ?_, ?_, ?_, ?_, ?_, ?_, ?_⟩
  · intro other
    by_cases same : other = i
    · subst same
      exact fits
    · change Fits other (table'.job other) (next.pc other)
      rw [jobs other same, kept other same]
      exact inv.fits other
  · intro other turn up
    by_cases same : other = i
    · subst same
      exact absurd up (granted turn)
    · rw [jobs other same] at up
      rw [states]
      exact inv.granted other turn up
  · intro other c at'
    rw [states]
    by_cases same : other = i
    · subst same
      exact signaled c at'
    · simp only [kept other same] at at'
      exact inv.signaled other c at'
  · intro c has
    rw [states]
    cases moved with
    | idle _ same => exact inv.free c (same ▸ has)
    | went _ _ same => exact inv.free c (same ▸ has)
    | slept _ _ same _ => exact inv.free c (same ▸ has)
    | resumed _ _ _ same _ => exact inv.free c (same ▸ has)
    | up id here given =>
        rcases given with inSem | ⟨wait, _, held⟩
        · exact upSem id c here (Token.sem.inj (inSem.symm.trans has))
        · rw [held] at has
          exact absurd has (by simp)
    | took _ _ _ taken _ =>
        rw [taken] at has
        exact absurd has (by simp)
  · intro other c has asleep
    rw [states]
    cases moved with
    | idle state same =>
        subst state
        exact inv.handed other c (same ▸ has) asleep
    | went here there same =>
        have active := inv.monitor.active i here
        rw [same, active] at has
        rw [← Token.proc.inj has] at asleep
        simp only at asleep
        rw [asleep] at there
        exact absurd there (by simp [Monitor.active])
    | slept id here same there =>
        by_cases self : other = i
        · subst self
          rcases inv.monitor.holder other (same ▸ has) with runs | ⟨id', asleep', _⟩
          · rw [here, Monitor.down_active] at runs
            exact absurd runs (by simp)
          · exact absurd (here.symm.trans asleep') (Monitor.down_sleep id id')
        · exact inv.handed other c (same ▸ has) (by simpa only [kept other self] using asleep)
    | resumed id _ holds same there =>
        rw [same, holds] at has
        rw [← Token.proc.inj has] at asleep
        simp only [there] at asleep
        cases id <;> simp [Monitor.gotAt] at asleep
    | up id here given =>
        rcases given with inSem | ⟨wait, waits, held⟩
        · rw [inSem] at has
          exact absurd has (by simp)
        · rw [held] at has
          obtain rfl := Token.proc.inj has
          have apart : wait ≠ i := by
            intro self
            have runs := up_at_active _ id here
            rw [← self, waits, Monitor.sleep_active] at runs
            exact absurd runs (by simp)
          simp only [kept wait apart, waits] at asleep
          have same : Monitor.sleepAt id = Monitor.sleepAt (.cv c) := asleep
          exact upSem id c here (Monitor.sleep_injective _ _ same)
    | took id _ _ taken there =>
        rw [taken] at has
        rw [← Token.proc.inj has] at asleep
        simp only [there] at asleep
        cases id <;> simp [Monitor.gotAt] at asleep
  · intro other c at'
    rw [states]
    by_cases same : other = i
    · subst same
      have idle := woken c at'
      cases moved with
      | idle state _ =>
          subst state
          exact inv.woken other c at'
      | went here _ _ =>
          rw [idle] at here
          exact absurd here (by simp)
      | slept id _ _ there =>
          simp only [there] at at'
          cases id <;> simp [Monitor.sleepAt] at at'
      | resumed id here holds _ there =>
          simp only [there] at at'
          cases id with
          | cv d =>
              simp only [Monitor.gotAt, At.waitUncount.injEq] at at'
              exact at' ▸ inv.handed other d holds here
          | mutex => simp [Monitor.gotAt] at at'
          | next => simp [Monitor.gotAt] at at'
      | up id here _ =>
          cases place : s.monitor.pc other <;> simp [place, Monitor.upAt, Monitor.active] at here idle
      | took id _ free _ there =>
          simp only [there] at at'
          cases id with
          | cv d =>
              simp only [Monitor.gotAt, At.waitUncount.injEq] at at'
              exact at' ▸ inv.free d free
          | mutex => simp [Monitor.gotAt] at at'
          | next => simp [Monitor.gotAt] at at'
    · simp only [kept other same] at at'
      exact inv.woken other c at'
  · intro other at' leaves
    rw [states]
    by_cases same : other = i
    · subst same
      exact settled at' leaves
    · rw [jobs other same] at leaves
      exact inv.settled other (by simpa only [kept other same] using at') leaves

-- What the place that a step of the monitor leads to has to do with the
-- philosopher's job.
structure Suits (table' : Table P CondWait) (place : At P) : Prop where
  fits : Fits i (table'.job i) place
  signaled : ∀ c, place = .signalCount c ∨ place = .signalUp c → s.table.state c = .eating
  woken : ∀ c, place = .waitUncount c → Monitor.active (s.monitor.pc i) = false
  settled : place = .inside → table'.job i = .waits .leave → s.table.state i = .eating

def plain : At P → Bool
  | .signalCount _ | .signalUp _ | .waitUncount _ | .inside => false
  | _ => true

omit [DecidableEq P] [Fintype P] inv in
theorem plain_suits (table' : Table P CondWait) (place : At P) (fits : Fits i (table'.job i) place) (quiet : plain place = true) :
    Suits s i table' place := by
  refine ⟨fits, fun c at' => ?_, fun c at' => ?_, fun at' => ?_⟩
  · rcases at' with at' | at' <;> rw [at'] at quiet <;> exact absurd quiet (by simp [plain])
  · rw [at'] at quiet
    exact absurd quiet (by simp [plain])
  · rw [at'] at quiet
    exact absurd quiet (by simp [plain])

omit [DecidableEq P] [Fintype P] inv in
theorem inside_suits (table' : Table P CondWait) (fits : table'.job i ≠ .thinking ∧ table'.job i ≠ .eating)
    (settled : table'.job i = .waits .leave → s.table.state i = .eating) : Suits s i table' .inside :=
  ⟨fits, by simp, by simp, fun _ => settled⟩

theorem then_inv (act : Act P) (table' : Table P CondWait) (runs : (s.monitor.waits.procs i).state = .runnable)
    (suits : ∀ next, s.monitor.call i act = .ok next → Suits s i table' (next.pc i)) (table : Table.DiningInv seats table')
    (states : table'.state = s.table.state) (jobs : ∀ other, other ≠ i → table'.job other = s.table.job other)
    (granted : ∀ turn, table'.job i ≠ .test .signal turn) :
    ∃ next token', s.monitorThen i act table' = .ok next ∧ CondInv seats next token' := by
  obtain ⟨monitor, token', called, monitorInv, moved, only⟩ := Monitor.call_inv s.monitor token inv.monitor i act runs
  obtain ⟨fits, signaled, woken, settled⟩ := suits monitor called
  refine ⟨⟨monitor, table'⟩, token', ?_, ?_⟩
  · rw [monitorThen, called, ok_bind, pure_ok]
  · exact monitor_inv seats s token inv i monitor token' table' monitorInv moved only table states jobs fits granted signaled woken settled

-- The places between which a philosopher has no choice.
theorem pass_suits (act : Act P) (notOutside : s.monitor.pc i ≠ .outside) (notInside : s.monitor.pc i ≠ .inside) (next : Monitor P P)
    (called : s.monitor.call i act = .ok next) : Suits s i s.table (next.pc i) := by
  have fits := inv.fits i
  cases here : s.monitor.pc i with
  | outside => exact absurd here notOutside
  | inside => exact absurd here notInside
  | enterSleep =>
      rw [here] at fits
      simp only [Monitor.call, here] at called
      rw [resume_place s.monitor next i .mutex called]
      refine inside_suits s i s.table ?_ ?_
      · rcases fits with job | job <;> simp [job]
      · rcases fits with job | job <;> simp [job]
  | signalCount c =>
      rw [here] at fits
      simp only [Monitor.call, here] at called
      have place : next.pc i = .signalUp c := by simp [← Except.ok.inj called, Monitor.goto]
      rw [place]
      refine ⟨fits, fun d at' => ?_, by simp, by simp⟩
      simp only [At.signalUp.injEq, reduceCtorEq, false_or] at at'
      exact inv.signaled i d (.inl (at' ▸ here))
  | signalUp c =>
      rw [here] at fits
      simp only [Monitor.call, here] at called
      rw [up_place s.monitor next i (.cv c) .signalDown called]
      exact plain_suits s i s.table _ fits rfl
  | signalDown =>
      rw [here] at fits
      simp only [Monitor.call, here] at called
      rw [← Except.ok.inj called]
      rcases down_place s.monitor i .next with place | place <;> rw [place] <;> exact plain_suits s i s.table _ fits rfl
  | signalSleep =>
      rw [here] at fits
      simp only [Monitor.call, here] at called
      rw [resume_place s.monitor next i .next called]
      exact plain_suits s i s.table _ fits rfl
  | signalUncount =>
      rw [here] at fits
      simp only [Monitor.call, here] at called
      have place : next.pc i = .inside := by simp [← Except.ok.inj called, Monitor.goto]
      obtain ⟨turn, job⟩ := fits
      rw [place]
      refine inside_suits s i s.table ?_ ?_ <;> rw [job] <;> cases turn <;> simp [Table.after]
  | waitCount c =>
      rw [here] at fits
      simp only [Monitor.call, here] at called
      have place : next.pc i = .waitTest c := by simp [← Except.ok.inj called, Monitor.goto]
      rw [place]
      exact plain_suits s i s.table _ fits rfl
  | waitTest c =>
      rw [here] at fits
      simp only [Monitor.call, here] at called
      have place : next.pc i = if 0 < s.monitor.nextCount then .waitUpNext c else .waitUpMutex c := by
        simp [← Except.ok.inj called, Monitor.goto]
      rw [place]
      by_cases signaler : 0 < s.monitor.nextCount
      · rw [if_pos signaler]
        exact plain_suits s i s.table _ fits rfl
      · rw [if_neg signaler]
        exact plain_suits s i s.table _ fits rfl
  | waitUpNext c =>
      rw [here] at fits
      simp only [Monitor.call, here] at called
      rw [up_place s.monitor next i .next (.waitDown c) called]
      exact plain_suits s i s.table _ fits rfl
  | waitUpMutex c =>
      rw [here] at fits
      simp only [Monitor.call, here] at called
      rw [up_place s.monitor next i .mutex (.waitDown c) called]
      exact plain_suits s i s.table _ fits rfl
  | waitDown c =>
      rw [here] at fits
      simp only [Monitor.call, here] at called
      rw [← Except.ok.inj called]
      rcases down_place s.monitor i (.cv c) with place | place
      · rw [place]
        exact ⟨fits, by simp [Monitor.gotAt], fun _ _ => by rw [here]; rfl, by simp [Monitor.gotAt]⟩
      · rw [place]
        exact plain_suits s i s.table _ fits rfl
  | waitSleep c =>
      rw [here] at fits
      simp only [Monitor.call, here] at called
      rw [resume_place s.monitor next i (.cv c) called]
      exact ⟨fits, by simp [Monitor.gotAt], fun _ _ => by rw [here]; rfl, by simp [Monitor.gotAt]⟩
  | waitUncount c =>
      rw [here] at fits
      simp only [Monitor.call, here] at called
      have place : next.pc i = .inside := by simp [← Except.ok.inj called, Monitor.goto]
      obtain ⟨own, job⟩ := fits
      rw [place]
      exact inside_suits s i s.table (by simp [job]) fun _ => own ▸ inv.woken i c here
  | leaveTest =>
      rw [here] at fits
      simp only [Monitor.call, here] at called
      have place : next.pc i = if 0 < s.monitor.nextCount then .leaveUpNext else .leaveUpMutex := by
        simp [← Except.ok.inj called, Monitor.goto]
      rw [place]
      by_cases signaler : 0 < s.monitor.nextCount
      · rw [if_pos signaler]
        exact plain_suits s i s.table _ fits rfl
      · rw [if_neg signaler]
        exact plain_suits s i s.table _ fits rfl
  | leaveUpNext =>
      rw [here] at fits
      simp only [Monitor.call, here] at called
      rw [up_place s.monitor next i .next .outside called]
      exact plain_suits s i s.table _ fits rfl
  | leaveUpMutex =>
      rw [here] at fits
      simp only [Monitor.call, here] at called
      rw [up_place s.monitor next i .mutex .outside called]
      exact plain_suits s i s.table _ fits rfl

-- down(&(mtp->mutex)) of phi_take_forks_condvar or phi_put_forks_condvar.
theorem enter_inv (job : Job CondWait) (runs : (s.monitor.waits.procs i).state = .runnable) (here : s.monitor.pc i = .outside)
    (next : job = .hunger ∨ job = .putting) (table : Table.DiningInv seats (s.table.goto i job)) :
    ∃ next token', s.monitorThen i .enter (s.table.goto i job) = .ok next ∧ CondInv seats next token' := by
  have own : (s.table.goto i job).job i = job := by simp [Table.goto]
  refine then_inv seats s token inv i .enter _ runs (fun monitor called => ?_) table rfl ?_ ?_
  · simp only [Monitor.call, here, if_true] at called
    rw [← Except.ok.inj called]
    rcases down_place s.monitor i .mutex with place | place
    · rw [place]
      refine inside_suits s i _ ?_ ?_
      · rw [own]
        rcases next with same | same <;> simp [same]
      · rw [own]
        rcases next with same | same <;> simp [same]
    · rw [place]
      exact plain_suits s i _ _ (by rw [own]; exact next) rfl
  · intro other apart
    simp [Table.goto, apart]
  · intro turn
    rw [own]
    rcases next with same | same <;> simp [same]

theorem outside_inv (runs : (s.monitor.waits.procs i).state = .runnable) (here : s.monitor.pc i = .outside) :
    ∃ next token', s.call seats i = .ok next ∧ CondInv seats next token' := by
  have own := inv.table.own i
  have fits := inv.fits i
  rw [here] at fits
  rcases fits with job | job
  · rw [job] at own
    have table : Table.DiningInv seats (s.table.goto i .hunger) :=
      Table.goto_inv seats s.table i inv.table _ own trivial fun j _ owes => by rw [job] at owes; exact absurd owes id
    obtain ⟨next, token', called, inv'⟩ := enter_inv seats s token inv i .hunger runs here (.inl rfl) table
    exact ⟨next, token', by simp only [call, here, job, called], inv'⟩
  · rw [job] at own
    have table : Table.DiningInv seats (s.table.goto i .putting) :=
      Table.goto_inv seats s.table i inv.table _ own trivial fun j _ owes => by rw [job] at owes; exact absurd owes id
    obtain ⟨next, token', called, inv'⟩ := enter_inv seats s token inv i .putting runs here (.inr rfl) table
    exact ⟨next, token', by simp only [call, here, job, called], inv'⟩

-- The way out of the monitor.
theorem leave_inv (job : Job CondWait) (runs : (s.monitor.waits.procs i).state = .runnable) (here : s.monitor.pc i = .inside)
    (next : job = .thinking ∨ job = .eating) (table : Table.DiningInv seats (s.table.goto i job)) :
    ∃ next token', s.monitorThen i .leave (s.table.goto i job) = .ok next ∧ CondInv seats next token' := by
  have own : (s.table.goto i job).job i = job := by simp [Table.goto]
  refine then_inv seats s token inv i .leave _ runs (fun monitor called => ?_) table rfl ?_ ?_
  · simp only [Monitor.call, here] at called
    have place : monitor.pc i = .leaveTest := by simp [← Except.ok.inj called, Monitor.goto]
    rw [place]
    exact plain_suits s i _ _ (by rw [own]; exact next) rfl
  · intro other apart
    simp [Table.goto, apart]
  · intro turn
    rw [own]
    rcases next with same | same <;> simp [same]

-- cond_signal at the end of phi_test_condvar, with or without somebody to wake up.
theorem signal_inv (turn : Turn) (runs : (s.monitor.waits.procs i).state = .runnable) (here : s.monitor.pc i = .inside)
    (job : s.table.job i = .test .signal turn) :
    ∃ next token', s.monitorThen i (.signal (Table.target seats i turn)) (s.table.phiTest seats .check i turn .signal) = .ok next ∧
      CondInv seats next token' := by
  have own : (s.table.phiTest seats .check i turn .signal).job i = Table.after .check turn := by simp [Table.phiTest, Table.goto]
  have eats := inv.granted i turn job
  refine then_inv seats s token inv i _ _ runs (fun monitor called => ?_)
    (Table.phi_test_inv seats s.table i inv.table .check .signal turn job (alone_tests seats s token inv i here)) rfl ?_ ?_
  · simp only [Monitor.call, here] at called
    by_cases waiter : 0 < s.monitor.count (Table.target seats i turn)
    · have place : monitor.pc i = .signalCount (Table.target seats i turn) := by simp [← Except.ok.inj called, waiter, Monitor.goto]
      rw [place]
      refine ⟨⟨turn, own⟩, fun c at' => ?_, by simp, by simp⟩
      simp only [At.signalCount.injEq, reduceCtorEq, or_false] at at'
      exact at' ▸ eats
    · have place : monitor.pc i = .inside := by simp [← Except.ok.inj called, waiter, here]
      rw [place]
      refine inside_suits s i _ ?_ ?_ <;> rw [own] <;> cases turn <;> simp [Table.after]
  · intro other apart
    simp [Table.phiTest, Table.goto, apart]
  · intro turn'
    rw [own]
    cases turn <;> simp [Table.after]

theorem test_inv (place : TestAt) (turn : Turn) (here : s.monitor.pc i = .inside) (job : s.table.job i = .test place turn)
    (silent : place ≠ .signal) : CondInv seats { s with table := s.table.phiTest seats .check i turn place } token := by
  have table := Table.phi_test_inv seats s.table i inv.table .check place turn job (alone_tests seats s token inv i here)
  have others : ∀ other, other ≠ i → (s.table.phiTest seats .check i turn place).job other = s.table.job other := by
    intro other apart
    cases place <;> simp [Table.phiTest, Table.goto, Table.setState, apart]
  -- The next comparison, the grant, or what follows the call.
  have comes : (∃ place', place' ≠ .signal ∧ (s.table.phiTest seats .check i turn place).job i = .test place' turn) ∨
      (s.table.phiTest seats .check i turn place).job i = Table.after .check turn ∨
      place = .grant ∧ (s.table.phiTest seats .check i turn place).job i = .test .signal turn := by
    cases place with
    | own =>
        by_cases hungry : s.table.state (Table.target seats i turn) = .hungry
        · exact .inl ⟨.left, by simp, by simp [Table.phiTest, Table.goto, hungry]⟩
        · exact .inr (.inl (by simp [Table.phiTest, Table.goto, hungry]))
    | left =>
        by_cases calm : s.table.state (seats.left (Table.target seats i turn)) ≠ .eating
        · exact .inl ⟨.right, by simp, by simp [Table.phiTest, Table.goto, calm]⟩
        · exact .inr (.inl (by simp [Table.phiTest, Table.goto, not_not.mp calm]))
    | right =>
        by_cases calm : s.table.state (seats.right (Table.target seats i turn)) ≠ .eating
        · exact .inl ⟨.grant, by simp, by simp [Table.phiTest, Table.goto, calm]⟩
        · exact .inr (.inl (by simp [Table.phiTest, Table.goto, not_not.mp calm]))
    | grant => exact .inr (.inr ⟨rfl, by simp [Table.phiTest, Table.goto]⟩)
    | signal => exact absurd rfl silent
  refine statement_inv seats s token inv i _ here others table ?_ ?_ ?_
  · rcases comes with ⟨place', _, same⟩ | same | ⟨_, same⟩ <;> rw [same]
    · simp
    · cases turn <;> simp [Table.after]
    · simp
  · intro turn' up
    rcases comes with ⟨place', apart, same⟩ | same | ⟨grant, same⟩ <;> rw [same] at up
    · exact absurd (Job.test.inj up).1 apart
    · cases turn <;> simp [Table.after] at up
    · obtain rfl := (Job.test.inj up).2
      subst grant
      simp [Table.phiTest, Table.goto, Table.setState]
  · intro leaves
    rcases comes with ⟨place', _, same⟩ | same | ⟨_, same⟩ <;> rw [same] at leaves
    · simp at leaves
    · cases turn <;> simp [Table.after] at leaves
    · simp at leaves

-- The comparison before cond_wait, and cond_wait: who is not HUNGRY there eats.
theorem waits_inv (place : CondWait) (runs : (s.monitor.waits.procs i).state = .runnable) (here : s.monitor.pc i = .inside)
    (job : s.table.job i = .waits place) : ∃ next token', s.call seats i = .ok next ∧ CondInv seats next token' := by
  have own := inv.table.own i
  rw [job] at own
  have goes : ∀ place', Table.DiningInv seats (s.table.goto i (.waits place')) := fun place' =>
    Table.goto_inv seats s.table i inv.table _ own trivial fun j _ owes => by rw [job] at owes; exact absurd owes id
  have job' : ∀ place', (s.table.goto i (.waits place')).job i = .waits place' := fun place' => by simp [Table.goto]
  have others : ∀ place' other, other ≠ i → (s.table.goto i (.waits place')).job other = s.table.job other := fun place' other apart => by
    simp [Table.goto, apart]
  cases place with
  | check =>
      refine ⟨_, token, by simp only [call, here, job]; rfl, ?_⟩
      refine statement_inv seats s token inv i _ here (others _) (goes _) (by simp [job']) (by simp [job']) fun leaves => ?_
      rw [job'] at leaves
      have calm : s.table.state i ≠ .hungry := by
        intro hungry
        rw [if_pos hungry] at leaves
        exact absurd leaves (by simp)
      cases state : s.table.state i with
      | thinking => exact absurd state own
      | hungry => exact absurd state calm
      | eating => exact state
  | wait =>
      obtain ⟨next, token', called, inv'⟩ := then_inv seats s token inv i (.wait i) (s.table.goto i (.waits .leave)) runs
        (fun monitor called => by
          simp only [Monitor.call, here] at called
          have place : monitor.pc i = .waitCount i := by simp [← Except.ok.inj called, Monitor.goto]
          rw [place]
          exact plain_suits s i _ _ ⟨rfl, job' _⟩ rfl) (goes _) rfl (others _) (by simp [job'])
      exact ⟨next, token', by simp only [call, here, job, called], inv'⟩
  | leave =>
      have table : Table.DiningInv seats (s.table.goto i .eating) :=
        Table.goto_inv seats s.table i inv.table _ (inv.settled i here job) trivial fun j _ owes => by rw [job] at owes; exact absurd owes id
      obtain ⟨next, token', called, inv'⟩ := leave_inv seats s token inv i .eating runs here (.inr rfl) table
      exact ⟨next, token', by simp only [call, here, job, called], inv'⟩

theorem inside_inv (runs : (s.monitor.waits.procs i).state = .runnable) (here : s.monitor.pc i = .inside) :
    ∃ next token', s.call seats i = .ok next ∧ CondInv seats next token' := by
  have own := inv.table.own i
  have fits := inv.fits i
  rw [here] at fits
  cases job : s.table.job i with
  | thinking => exact absurd job fits.1
  | eating => exact absurd job fits.2
  | hunger =>
      refine ⟨_, token, by simp only [call, here, job]; rfl, ?_⟩
      refine statement_inv seats s token inv i _ here ?_ (Table.take_forks_inv seats s.table i inv.table job) ?_ ?_ ?_
      · intro other apart
        simp [Table.takeForks, Table.goto, Table.setState, apart]
      · simp [Table.takeForks, Table.goto]
      · simp [Table.takeForks, Table.goto]
      · simp [Table.takeForks, Table.goto]
  | test place turn =>
      cases place with
      | signal =>
          obtain ⟨next, token', called, inv'⟩ := signal_inv seats s token inv i turn runs here job
          exact ⟨next, token', by simp only [call, here, job, called], inv'⟩
      | _ => exact ⟨_, token, by simp only [call, here, job], test_inv seats s token inv i _ turn here job (by simp)⟩
  | waits place => exact waits_inv seats s token inv i place runs here job
  | putting =>
      refine ⟨_, token, by simp only [call, here, job]; rfl, ?_⟩
      refine statement_inv seats s token inv i _ here ?_ (Table.put_forks_inv seats s.table i inv.table job) ?_ ?_ ?_
      · intro other apart
        simp [Table.putForks, Table.goto, Table.setState, apart]
      · simp [Table.putForks, Table.goto]
      · simp [Table.putForks, Table.goto]
      · simp [Table.putForks, Table.goto]
  | leaving =>
      rw [job] at own
      have table : Table.DiningInv seats (s.table.goto i .thinking) :=
        Table.goto_inv seats s.table i inv.table _ own trivial fun j _ owes => by rw [job] at owes; exact absurd owes id
      obtain ⟨next, token', called, inv'⟩ := leave_inv seats s token inv i .thinking runs here (.inl rfl) table
      exact ⟨next, token', by simp only [call, here, job, called], inv'⟩

theorem call_inv (runs : (s.monitor.waits.procs i).state = .runnable) : ∃ next token', s.call seats i = .ok next ∧ CondInv seats next token' := by
  by_cases outside : s.monitor.pc i = .outside
  · exact outside_inv seats s token inv i runs outside
  · by_cases within : s.monitor.pc i = .inside
    · exact inside_inv seats s token inv i runs within
    · have fits := inv.fits i
      obtain ⟨next, token', called, inv'⟩ := then_inv seats s token inv i .leave s.table runs
        (pass_suits seats s token inv i .leave outside within) inv.table rfl (fun _ _ => rfl)
        (fun turn job => within (test_place seats s token inv i .signal turn job (by simp)))
      refine ⟨next, token', ?_, inv'⟩
      rw [← called, call]
      split
      · exact absurd ‹_› outside
      · exact absurd ‹_› within
      · rfl

end Steps

variable [Fintype P]

theorem boot_inv (seats : Seats P) (waits : Waits P) (ready : ∀ proc, (waits.procs proc).state = .runnable) :
    CondInv seats (boot waits) (.sem .mutex) where
  monitor := Monitor.boot_inv waits ready
  table := Table.boot_inv seats
  fits := fun _ => .inl rfl
  granted := by simp [boot]
  signaled := by simp [boot, Monitor.boot]
  free := by simp
  handed := by simp
  woken := by simp [boot, Monitor.boot]
  settled := by simp [boot]

theorem run_inv (seats : Seats P) (waits : Waits P) (ready : ∀ proc, (waits.procs proc).state = .runnable) (events : List P)
    (final : DiningCondvar P) (ran : run (step seats) (boot waits) events = some final) : ∃ token, CondInv seats final token := by
  refine run_invariant (step seats) (fun _ _ => True) (fun s => ∃ token, CondInv seats s token) ?_ events _ final
    ⟨_, boot_inv seats waits ready⟩ (throughout_trivial _ _ (fun _ _ => trivial) events _) ran
  intro s i next held _ taken
  obtain ⟨token, inv⟩ := held
  by_cases runs : (s.monitor.waits.procs i).state = .runnable
  · obtain ⟨after, token', called, inv'⟩ := call_inv seats s token inv i runs
    simp only [step, runs, called, if_true, Option.some.injEq] at taken
    exact ⟨token', taken ▸ inv'⟩
  · simp [step, runs] at taken

theorem condvar_safe (seats : Seats P) (waits : Waits P) (ready : ∀ proc, (waits.procs proc).state = .runnable) (events : List P)
    (final : DiningCondvar P) (ran : run (step seats) (boot waits) events = some final) :
    DiningSafe seats final.table.state final.Returned final.Inside := by
  obtain ⟨token, inv⟩ := run_inv seats waits ready events final ran
  refine Table.dining_safe seats final.table inv.table final.Returned _ (fun i back => back.1) ?_
  intro i tests
  obtain ⟨place, turn, job⟩ := tests
  have fits := inv.fits i
  rw [job] at fits
  cases at' : final.monitor.pc i <;> simp [at', Fits, Inside, inside] at fits ⊢

end DiningCondvar

-- Any number of philosophers from three on, any number of rounds each, and any
-- order of their statements.
theorem dining_philosophers (count : Nat) (three : 3 ≤ count) (waits : Waits (Fin count)) (ready : ∀ i, (waits.procs i).state = .runnable) :
    (∀ events final, run (DiningSema.step (ring count three)) (DiningSema.boot waits) events = some final →
      DiningSafe (ring count three) final.table.state final.Returned final.Inside) ∧
    ∀ events final, run (DiningCondvar.step (ring count three)) (DiningCondvar.boot waits) events = some final →
      DiningSafe (ring count three) final.table.state final.Returned final.Inside :=
  ⟨fun events final ran => DiningSema.sema_safe (ring count three) waits events final ran,
    fun events final ran => DiningCondvar.condvar_safe (ring count three) waits ready events final ran⟩

-- Five philosophers: the first eats, the second waits for it, and is granted the
-- forks when the first puts them back.
def fiveWaits : Waits (Fin 5) := ⟨fun _ => { allocProc with state := .runnable }, fun _ => 0⟩

def fiveSema : List (Fin 5) := List.replicate 9 0 ++ List.replicate 6 1 ++ List.replicate 9 0 ++ [1]

def fiveCondvar : List (Fin 5) := List.replicate 11 0 ++ List.replicate 10 1 ++ List.replicate 11 0 ++ List.replicate 5 1

theorem dining_philosophers_five : ∃ sema condvar,
    run (DiningSema.step (ring 5 (by decide))) (DiningSema.boot fiveWaits) fiveSema = some sema ∧
    run (DiningCondvar.step (ring 5 (by decide))) (DiningCondvar.boot fiveWaits) fiveCondvar = some condvar ∧
    DiningSafe (ring 5 (by decide)) sema.table.state sema.Returned sema.Inside ∧
    DiningSafe (ring 5 (by decide)) condvar.table.state condvar.Returned condvar.Inside := by
  have semaReturns : (run (DiningSema.step (ring 5 (by decide))) (DiningSema.boot fiveWaits) fiveSema).isSome = true := by decide +kernel
  have condvarReturns : (run (DiningCondvar.step (ring 5 (by decide))) (DiningCondvar.boot fiveWaits) fiveCondvar).isSome = true := by
    decide +kernel
  obtain ⟨sema, ranSema⟩ := Option.isSome_iff_exists.mp semaReturns
  obtain ⟨condvar, ranCondvar⟩ := Option.isSome_iff_exists.mp condvarReturns
  obtain ⟨semaSafe, condvarSafe⟩ := dining_philosophers 5 (by decide) fiveWaits (fun _ => rfl)
  exact ⟨sema, condvar, ranSema, ranCondvar, semaSafe fiveSema sema ranSema, condvarSafe fiveCondvar condvar ranCondvar⟩

end Ucore.Sync
